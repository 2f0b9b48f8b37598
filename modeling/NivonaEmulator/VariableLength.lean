import NivonaEmulator.SessionRoundTrip

/-!
# Requests of variable length

The parser ends these requests at the first end marker, although their bodies
are ciphertext.  A request whose ciphertext holds the marker is cut there, and
gets through only when the part before the cut happens to say the same.
-/

namespace Nivona

/-- The commands whose requests have no fixed size. -/
inductive VariableCmd
  | hb | hl | hs | hp | hn
  deriving DecidableEq, Repr

/-- Second byte of the command. -/
def VariableCmd.code : VariableCmd → UInt8
  | .hb => 0x42
  | .hl => 0x4C
  | .hs => 0x53
  | .hp => 0x70
  | .hn => 0x4E

theorem expectedRequestSize_variable (cmd : VariableCmd) :
    expectedRequestSize cmd.code = 0 := by
  cases cmd <;> rfl

theorem variable_code_ne_end (cmd : VariableCmd) : cmd.code ≠ FRAME_END := by
  cases cmd <;> decide

/-- The request is dispatched exactly once with its payload, and the parser is
idle behind it. -/
def RequestRoundTrips (m : Machine) (cmd : Cmd) (payload : List UInt8) : Prop :=
  let m' := nivonaFrameFeed m
    (Client.buildFrame cmd payload m.link.frame.keyPrefix.bytes true)
  dispatches m'.link.calls = dispatches m.link.calls ++ [(cmd, payload)] ∧
    m'.link.frame.inFrame = false

/-! ## A bound on what a stream can dispatch -/

/-- Bytes of the frame being received. -/
def Frame.load (f : Frame) : ℕ := if f.inFrame then f.buf.length else 0

theorem length_stripPrefix_le (f : Frame) (enc : Bool) (payload : List UInt8) :
    (stripPrefix f enc payload).length ≤ payload.length := by
  rw [stripPrefix]
  split
  · rw [List.length_drop]
    omega
  · exact le_rfl

/-- A session survives every dispatch. -/
theorem nivonaDispatch_handshakeDone {m : Machine} (h : m.link.frame.handshakeDone = true)
    (cmd : Cmd) (payload : List UInt8) :
    (nivonaDispatch m cmd payload).link.frame.handshakeDone = true := by
  by_cases hcmd : cmd = CMD_HANDSHAKE
  · subst hcmd
    rw [nivonaDispatch, dispatchHandler, if_pos rfl]
    by_cases hlen : payload.length < 6
    · obtain ⟨d, hd⟩ := handleHu_short hlen
      rw [hd]
      exact h
    · obtain ⟨d, r, w, hlink⟩ := handleHu_long (Nat.le_of_not_lt hlen)
      rw [hlink]
      rfl
  · rw [nivonaDispatch_frame m payload hcmd]
    exact h

/-- A frame of a session dispatches nothing, or a payload that is at least five
bytes shorter than itself. -/
theorem tryParse_load {m : Machine} (hdone : m.link.frame.handshakeDone = true) :
    (tryParse m).link.frame.handshakeDone = true ∧
      (dispatches (tryParse m).link.calls = dispatches m.link.calls ∨
      ∃ cmd payload, payload.length + 5 ≤ m.link.frame.buf.length ∧
        dispatches (tryParse m).link.calls =
          dispatches m.link.calls ++ [(cmd, payload)]) := by
  obtain ⟨d, hreject | ⟨c, body, hbuf, hparse⟩ | ⟨a, payload, hnot, -⟩⟩ := tryParse_cases m
  · rw [hreject]
    exact ⟨hdone, Or.inl rfl⟩
  · rw [hparse]
    refine ⟨nivonaDispatch_handshakeDone (m := m.withDiag d) hdone _ _,
      Or.inr ⟨hCmd c, stripPrefix m.link.frame true body, ?_, ?_⟩⟩
    · have hle := length_stripPrefix_le m.link.frame true body
      rw [hbuf, length_frameOf_hCmd]
      omega
    · rw [dispatches_nivonaDispatch, Machine.withDiag_calls]
  · rw [hdone] at hnot
    cases hnot

/-- One byte dispatches nothing, or one payload that is at least five bytes
shorter than its frame. -/
theorem feedByte_load {m : Machine} (hdone : m.link.frame.handshakeDone = true) (b : UInt8) :
    (feedByte m b).link.frame.handshakeDone = true ∧
      ((dispatches (feedByte m b).link.calls = dispatches m.link.calls ∧
        (feedByte m b).link.frame.load ≤ m.link.frame.load + 1) ∨
      (∃ cmd payload, payload.length + 5 ≤ m.link.frame.load + 1 ∧
        dispatches (feedByte m b).link.calls =
          dispatches m.link.calls ++ [(cmd, payload)] ∧
        (feedByte m b).link.frame.load = 0)) := by
  cases hin : m.link.frame.inFrame with
  | false =>
      by_cases hb : b = FRAME_START
      · subst hb
        rw [feedByte_start hin]
        exact ⟨hdone, Or.inl ⟨rfl, Nat.le_add_left 1 _⟩⟩
      · rw [feedByte_noise hin hb]
        exact ⟨hdone, Or.inl ⟨rfl, Nat.le_succ _⟩⟩
  | true =>
      have hload : m.link.frame.load = m.link.frame.buf.length := by
        rw [Frame.load, hin]
        rfl
      by_cases hroom : m.link.frame.buf.length < MAX_FRAME_BYTES
      · cases hc : frameComplete (m.link.frame.buf ++ [b]) b with
        | false =>
            have hfeed := feedByte_incomplete m m.link.frame.length_buf hroom hc
            rw [← receiving_self hin] at hfeed
            rw [hfeed, hload]
            exact ⟨hdone, Or.inl ⟨rfl, Nat.le_of_eq List.length_append⟩⟩
        | true =>
            have hparse := tryParse_load
              (m := m.receiving (m.link.frame.buf ++ [b]) (length_push_le hroom)) hdone
            rw [receiving_buf, List.length_append, List.length_singleton] at hparse
            rw [feedByte_ends hin hroom hc, hload]
            obtain ⟨hdone', hcalls | ⟨cmd, payload, hlen, hcalls⟩⟩ := hparse
            · exact ⟨hdone', Or.inl ⟨hcalls, Nat.zero_le _⟩⟩
            · exact ⟨hdone', Or.inr ⟨cmd, payload, hlen, hcalls, rfl⟩⟩
      · rw [feedByte, if_neg (by simp [hin]), dif_neg hroom]
        exact ⟨hdone, Or.inl ⟨rfl, Nat.zero_le _⟩⟩

/-- Every payload a stream dispatches is at least five bytes shorter than the
stream and the bytes received before it. -/
theorem feed_load (data : List UInt8) {m : Machine}
    (hdone : m.link.frame.handshakeDone = true) :
    ∃ new, dispatches (nivonaFrameFeed m data).link.calls = dispatches m.link.calls ++ new ∧
      ∀ call ∈ new, call.2.length + 5 ≤ m.link.frame.load + data.length := by
  induction data generalizing m with
  | nil => exact ⟨[], by simp, by simp⟩
  | cons b data ih =>
      obtain ⟨hdone', hstep⟩ := feedByte_load hdone b
      obtain ⟨new, hnew, hbound⟩ := ih hdone'
      rw [nivonaFrameFeed_cons, List.length_cons]
      rcases hstep with ⟨hcalls, hload⟩ | ⟨cmd, payload, hlen, hcalls, hload⟩
      · refine ⟨new, by rw [hnew, hcalls], fun call hcall => ?_⟩
        have := hbound call hcall
        omega
      · refine ⟨(cmd, payload) :: new, by rw [hnew, hcalls]; simp, fun call hcall => ?_⟩
        rcases List.mem_cons.mp hcall with rfl | hcall
        · dsimp only
          omega
        · have := hbound call hcall
          omega

/-! ## The first end marker -/

/-- What a request dispatches when the ciphertext `pre` stands before the first
end marker. -/
def cutDispatch (f : Frame) (c : UInt8) (pre : List UInt8) : List (Cmd × List UInt8) :=
  let plain := nivonaRc4WithMasterKey pre
  if plain ≠ [] ∧ plain.getLastD 0 = checksum (hCmd c ++ plain.dropLast) then
    [(hCmd c, stripPrefix f true plain.dropLast)]
  else []

/-- A frame without a body does not open. -/
theorem openFrame_noBody (hd : Bool) (c : UInt8) :
    openFrame hd [FRAME_START, 0x48, c, FRAME_END] = .error .noBody := by
  have hinfo : cmdInfo hd [0x48, c] = some (2, true) := by simp [cmdInfo]
  rw [openFrame, if_neg (by simp), if_neg (by simp)]
  simp [hinfo]

/-- Parsing what was received up to the first end marker. -/
theorem tryParse_cut {m : Machine} {c : UInt8} {pre : List UInt8}
    (hbuf : m.link.frame.buf = FRAME_START :: 0x48 :: c :: (pre ++ [FRAME_END])) :
    dispatches (tryParse m).link.calls =
      dispatches m.link.calls ++ cutDispatch m.link.frame c pre := by
  by_cases hpre : pre = []
  · subst hpre
    obtain ⟨d, hd⟩ := tryParse_of_error (m := m) (e := .noBody) (by
      rw [hbuf]
      exact openFrame_noBody _ c)
    rw [hd]
    simp [cutDispatch, nivonaRc4WithMasterKey, nivonaRc4]
  · have hne : nivonaRc4WithMasterKey pre ≠ [] := by
      rw [← List.length_pos_iff, length_nivonaRc4WithMasterKey]
      exact List.length_pos_iff.mpr hpre
    let o : OpenedFrame :=
      { cmd := hCmd c, encrypted := true, plain := nivonaRc4WithMasterKey pre }
    obtain ⟨d, hd⟩ := tryParse_of_ok (m := m) (o := o) (by
      rw [hbuf]
      exact openFrame_hCmd _ c pre hpre)
    by_cases hcs : o.recvCs = o.expectCs
    · rw [hd, if_neg (not_not.mpr hcs), dispatches_nivonaDispatch, cutDispatch,
        if_pos ⟨hne, hcs⟩]
      rfl
    · rw [hd, if_pos hcs, cutDispatch, if_neg (fun h => hcs h.2), List.append_nil]
      rfl

/-- A request of variable length up to the first end marker. -/
theorem feed_cut {m : Machine} (hidle : m.link.frame.inFrame = false)
    (hdone : m.link.frame.handshakeDone = true) (cmd : VariableCmd) {pre : List UInt8}
    (hpre : FRAME_END ∉ pre) (hlen : pre.length + 4 ≤ MAX_FRAME_BYTES) :
    let m' := nivonaFrameFeed m
      (FRAME_START :: 0x48 :: cmd.code :: (pre ++ [FRAME_END]))
    dispatches m'.link.calls =
        dispatches m.link.calls ++ cutDispatch m.link.frame cmd.code pre ∧
      m'.link.frame.inFrame = false ∧ m'.link.frame.handshakeDone = true := by
  have hle : (FRAME_START :: 0x48 :: cmd.code :: (pre ++ [FRAME_END])).length ≤
      MAX_FRAME_BYTES := by
    simp only [List.length_cons, List.length_append, List.length_nil]
    omega
  have hlast : frameComplete (FRAME_START :: 0x48 :: cmd.code :: (pre ++ [FRAME_END]))
      FRAME_END = true := by
    rw [frameComplete_hCmd, expectedRequestSize_variable, if_neg (Nat.lt_irrefl 0)]
    rfl
  dsimp only
  rw [feed_frame (p := FRAME_START :: 0x48 :: cmd.code :: (pre ++ [FRAME_END]))
    (q := 0x48 :: cmd.code :: pre) hidle rfl hle
    (incomplete_variableSize (expectedRequestSize_variable cmd) (variable_code_ne_end cmd) hpre)
    hlast]
  refine ⟨?_, rfl, ?_⟩
  · rw [closeFrame_calls, tryParse_cut rfl]
    rfl
  · exact (tryParse_load (m := m.receiving _ hle) hdone).1

/-- A single byte and an end marker dispatch nothing between frames. -/
theorem feed_remainder {m : Machine} (hidle : m.link.frame.inFrame = false) (x : UInt8) :
    let m' := nivonaFrameFeed m [x, FRAME_END]
    dispatches m'.link.calls = dispatches m.link.calls ∧ m'.link.frame.inFrame = false := by
  by_cases hx : x = FRAME_START
  · subst hx
    have hfeed := feed_frame (m := m) (p := [FRAME_START, FRAME_END]) (q := [])
      hidle rfl (by simp [MAX_FRAME_BYTES]) (by simp) (frameComplete_short (by simp) _)
    dsimp only
    rw [hfeed]
    obtain ⟨d, hd⟩ := tryParse_of_error (e := .tooShort)
      (m := m.receiving [FRAME_START, FRAME_END] (by simp [MAX_FRAME_BYTES])) rfl
    refine ⟨?_, rfl⟩
    rw [closeFrame_calls, hd]
    rfl
  · have hnoise : FRAME_START ∉ [x, FRAME_END] := by
      simp only [List.mem_cons, List.not_mem_nil, or_false, not_or]
      exact ⟨Ne.symm hx, by decide⟩
    dsimp only
    rw [feed_noise hidle hnoise]
    exact ⟨rfl, hidle⟩

/-! ## When a request gets through -/

/-- The payload is at most one byte, the part of the frame before its first end
marker is that payload again, and the byte behind it is the right checksum. -/
def HarmlessCut (kp : KeyPrefix) (cmd : VariableCmd) (payload : List UInt8) : Prop :=
  let ct := cipherBody (hCmd cmd.code) (kp.bytes ++ payload)
  payload.length < KEY_PREFIX_LEN ∧ payload = kp.bytes.take payload.length ∧
    kp.bytes[payload.length]? = some (checksum (hCmd cmd.code ++ payload)) ∧
    FRAME_END ∉ ct.take (payload.length + 1) ∧
    ct[payload.length + 1]? = some FRAME_END

/-- The decrypted part of a request before a cut. -/
theorem rc4_take_cipherBody (cmd : Cmd) (body : List UInt8) {j : ℕ} (hj : j ≤ body.length) :
    nivonaRc4WithMasterKey ((cipherBody cmd body).take j) = body.take j := by
  rw [nivonaRc4WithMasterKey_take, cipherBody, nivonaRc4WithMasterKey_involutive,
    List.take_append_of_le_length hj]

/-- The whole ciphertext dispatches the payload. -/
theorem cutDispatch_cipherBody {f : Frame} (hdone : f.handshakeDone = true) (c : UInt8)
    (payload : List UInt8) :
    cutDispatch f c (cipherBody (hCmd c) (f.keyPrefix.bytes ++ payload)) =
      [(hCmd c, payload)] := by
  rw [cutDispatch, cipherBody, nivonaRc4WithMasterKey_involutive, List.dropLast_concat,
    List.getLastD_concat, if_pos ⟨by simp, rfl⟩, stripPrefix_of_prefixed hdone]

/-- What is dispatched at a cut, in terms of the request. -/
theorem cutDispatch_take (f : Frame) {c : UInt8} {body : List UInt8} {n : ℕ}
    (hn : n < body.length) :
    cutDispatch f c ((cipherBody (hCmd c) body).take (n + 1)) =
      if body[n] = checksum (hCmd c ++ body.take n) then
        [(hCmd c, stripPrefix f true (body.take n))]
      else [] := by
  rw [cutDispatch, rc4_take_cipherBody _ _ hn, ← List.take_append_getElem hn,
    List.dropLast_concat, List.getLastD_concat]
  exact if_congr (and_iff_right (List.append_ne_nil_of_right_ne_nil _ (by simp))) rfl rfl

/-- The prefix is cut off a part of a request that reaches behind it. -/
theorem stripPrefix_take {f : Frame} (hdone : f.handshakeDone = true) (payload : List UInt8)
    (n : ℕ) :
    stripPrefix f true ((f.keyPrefix.bytes ++ payload).take n) =
      if n < KEY_PREFIX_LEN then f.keyPrefix.bytes.take n
      else payload.take (n - KEY_PREFIX_LEN) := by
  have hkp : f.keyPrefix.bytes.length = KEY_PREFIX_LEN := rfl
  split
  · rename_i hn
    rw [List.take_append_of_le_length (by omega), stripPrefix, if_neg]
    rintro ⟨-, -, hlen, -⟩
    rw [List.length_take] at hlen
    omega
  · rename_i hn
    rw [List.take_append, List.take_of_length_le (by omega), hkp,
      stripPrefix_of_prefixed hdone]

/-- A cut at index `n + 1` dispatches the payload exactly when it is harmless:
with the prefix behind it the cut part is too short. -/
theorem cutDispatch_eq_iff {f : Frame} (hdone : f.handshakeDone = true) {c : UInt8}
    {payload : List UInt8} {n : ℕ} (hn : n < (f.keyPrefix.bytes ++ payload).length) :
    (hCmd c, payload) ∈ cutDispatch f c
        ((cipherBody (hCmd c) (f.keyPrefix.bytes ++ payload)).take (n + 1)) ↔
      n < KEY_PREFIX_LEN ∧ payload = f.keyPrefix.bytes.take n ∧
        f.keyPrefix.bytes[n]? = some (checksum (hCmd c ++ payload)) := by
  have hkp : f.keyPrefix.bytes.length = KEY_PREFIX_LEN := rfl
  have hbody : (f.keyPrefix.bytes ++ payload).length =
      f.keyPrefix.bytes.length + payload.length := List.length_append
  rw [cutDispatch_take f hn, stripPrefix_take hdone]
  by_cases hshort : n < KEY_PREFIX_LEN
  · have hget : (f.keyPrefix.bytes ++ payload)[n] = f.keyPrefix.bytes[n] :=
      List.getElem_append_left (by omega)
    rw [if_pos hshort, hget, List.take_append_of_le_length (by omega),
      List.getElem?_eq_getElem (by omega)]
    constructor
    · intro h
      split at h
      · rename_i hcs
        obtain rfl : payload = f.keyPrefix.bytes.take n := by simpa using h
        exact ⟨hshort, rfl, congrArg some hcs⟩
      · cases h
    · rintro ⟨-, hpayload, hcs⟩
      rw [if_pos (by rw [← hpayload]; exact Option.some.inj hcs), ← hpayload]
      exact List.mem_singleton.mpr rfl
  · rw [if_neg hshort]
    constructor
    · intro h
      split at h
      · have hlen : payload.length = (payload.take (n - KEY_PREFIX_LEN)).length := by
          have hmem : payload = payload.take (n - KEY_PREFIX_LEN) := by simpa using h
          exact congrArg List.length hmem
        rw [List.length_take] at hlen
        omega
      · cases h
    · rintro ⟨h, -⟩
      exact absurd h hshort

/-- The request of a payload, split at an end marker in its ciphertext. -/
theorem buildFrame_split {kp : KeyPrefix} {cmd : VariableCmd} {payload pre post : List UInt8}
    (hct : cipherBody (hCmd cmd.code) (kp.bytes ++ payload) = pre ++ FRAME_END :: post) :
    Client.buildFrame (hCmd cmd.code) payload kp.bytes true =
      (FRAME_START :: 0x48 :: cmd.code :: (pre ++ [FRAME_END])) ++ (post ++ [FRAME_END]) := by
  rw [Client.buildFrame_eq, frameOf_hCmd, hct]
  simp

theorem requestRoundTrips_of_free {m : Machine} (hidle : m.link.frame.inFrame = false)
    (hdone : m.link.frame.handshakeDone = true) (cmd : VariableCmd) {payload : List UInt8}
    (hlen : payload.length + 7 ≤ MAX_FRAME_BYTES)
    (hfree : FRAME_END ∉
      cipherBody (hCmd cmd.code) (m.link.frame.keyPrefix.bytes ++ payload)) :
    RequestRoundTrips m (hCmd cmd.code) payload := by
  have hroom : (cipherBody (hCmd cmd.code)
      (m.link.frame.keyPrefix.bytes ++ payload)).length + 4 ≤ MAX_FRAME_BYTES := by
    rw [length_cipherBody, List.length_append, KeyPrefix.length_bytes, KEY_PREFIX_LEN]
    omega
  obtain ⟨hcalls, hin, -⟩ := feed_cut hidle hdone cmd hfree hroom
  rw [cutDispatch_cipherBody hdone] at hcalls
  rw [RequestRoundTrips, Client.buildFrame_eq, frameOf_hCmd]
  exact ⟨hcalls, hin⟩

theorem requestRoundTrips_of_harmless {m : Machine} (hidle : m.link.frame.inFrame = false)
    (hdone : m.link.frame.handshakeDone = true) (cmd : VariableCmd) {payload : List UInt8}
    (hlen : payload.length + 7 ≤ MAX_FRAME_BYTES)
    (hcut : HarmlessCut m.link.frame.keyPrefix cmd payload) :
    RequestRoundTrips m (hCmd cmd.code) payload := by
  obtain ⟨hshort, hpayload, hcs, hpre, hend⟩ := hcut
  generalize hct : cipherBody (hCmd cmd.code)
    (m.link.frame.keyPrefix.bytes ++ payload) = ct at hpre hend
  have hbody : (m.link.frame.keyPrefix.bytes ++ payload).length =
      KEY_PREFIX_LEN + payload.length := by
    rw [List.length_append, KeyPrefix.length_bytes]
  have hctlen : ct.length = KEY_PREFIX_LEN + payload.length + 1 := by
    rw [← hct, length_cipherBody, hbody]
  have hsplit : ct = ct.take (payload.length + 1) ++
      FRAME_END :: ct.drop (payload.length + 2) := by
    obtain ⟨hlt, hget⟩ := List.getElem?_eq_some_iff.mp hend
    rw [← hget, ← List.drop_eq_getElem_cons hlt, List.take_append_drop]
  -- one byte of ciphertext is left behind the cut
  obtain ⟨x, hx⟩ : ∃ x, ct.drop (payload.length + 2) = [x] := by
    rw [← List.length_eq_one_iff, List.length_drop, hctlen, KEY_PREFIX_LEN]
    omega
  have hroom : (ct.take (payload.length + 1)).length + 4 ≤ MAX_FRAME_BYTES := by
    rw [List.length_take]
    omega
  have hdispatch : cutDispatch m.link.frame cmd.code (ct.take (payload.length + 1)) =
      [(hCmd cmd.code, payload)] := by
    have hmem := (cutDispatch_eq_iff (c := cmd.code) hdone (n := payload.length)
      (by rw [hbody, KEY_PREFIX_LEN]; omega)).mpr ⟨hshort, hpayload, hcs⟩
    rw [hct] at hmem
    rw [cutDispatch] at hmem ⊢
    split at hmem
    · rw [List.mem_singleton.mp hmem, if_pos (by assumption)]
    · cases hmem
  obtain ⟨hcalls, hin, -⟩ := feed_cut hidle hdone cmd hpre hroom
  rw [hdispatch] at hcalls
  obtain ⟨hrest, hin'⟩ := feed_remainder hin x
  rw [RequestRoundTrips, buildFrame_split (hct.trans hsplit), hx, nivonaFrameFeed_append]
  exact ⟨hrest.trans hcalls, hin'⟩

theorem free_or_harmless_of_requestRoundTrips {m : Machine}
    (hidle : m.link.frame.inFrame = false) (hdone : m.link.frame.handshakeDone = true)
    (cmd : VariableCmd) {payload : List UInt8} (hlen : payload.length + 7 ≤ MAX_FRAME_BYTES)
    (h : RequestRoundTrips m (hCmd cmd.code) payload) :
    FRAME_END ∉ cipherBody (hCmd cmd.code) (m.link.frame.keyPrefix.bytes ++ payload) ∨
      HarmlessCut m.link.frame.keyPrefix cmd payload := by
  rw [or_iff_not_imp_left, not_not]
  intro hmem
  obtain ⟨pre, post, hct, hpre⟩ := List.eq_append_cons_of_mem hmem
  have hbody : (m.link.frame.keyPrefix.bytes ++ payload).length =
      KEY_PREFIX_LEN + payload.length := by
    rw [List.length_append, KeyPrefix.length_bytes]
  have hctlen := congrArg List.length hct
  rw [length_cipherBody, hbody, List.length_append, List.length_cons] at hctlen
  have hroom : pre.length + 4 ≤ MAX_FRAME_BYTES := by
    rw [KEY_PREFIX_LEN] at hctlen
    omega
  obtain ⟨hcalls, hin, hdone'⟩ := feed_cut hidle hdone cmd hpre hroom
  obtain ⟨new, hnew, hbound⟩ := feed_load (post ++ [FRAME_END]) hdone'
  rw [RequestRoundTrips, buildFrame_split hct, nivonaFrameFeed_append, hnew, hcalls,
    List.append_assoc, List.append_cancel_left_eq] at h
  -- behind the cut there is no room for the payload
  have hearly : (hCmd cmd.code, payload) ∈ cutDispatch m.link.frame cmd.code pre := by
    have hall : (hCmd cmd.code, payload) ∈ cutDispatch m.link.frame cmd.code pre ++ new := by
      rw [h.1]
      exact List.mem_singleton.mpr rfl
    rcases List.mem_append.mp hall with hall | hlate
    · exact hall
    · have hlate := hbound _ hlate
      rw [Frame.load, hin, List.length_append, List.length_singleton] at hlate
      simp only [KEY_PREFIX_LEN, Bool.false_eq_true, if_false] at hlate hctlen
      omega
  have hpos : pre ≠ [] := by
    rintro rfl
    simp [cutDispatch, nivonaRc4WithMasterKey, nivonaRc4] at hearly
  obtain ⟨n, hn⟩ := Nat.exists_eq_succ_of_ne_zero (List.length_pos_iff.mpr hpos).ne'
  have htake : pre = (cipherBody (hCmd cmd.code)
      (m.link.frame.keyPrefix.bytes ++ payload)).take (n + 1) := by
    rw [hct, ← Nat.succ_eq_add_one, ← hn, List.take_left]
  rw [htake] at hearly
  obtain ⟨hshort, hpayload, hcs⟩ :=
    (cutDispatch_eq_iff hdone (by rw [hbody]; omega)).mp hearly
  obtain rfl : n = payload.length := by
    rw [hpayload, List.length_take, KeyPrefix.length_bytes]
    omega
  refine ⟨hshort, hpayload, hcs, ?_, ?_⟩
  · rw [← htake]
    exact hpre
  · rw [hct, ← Nat.succ_eq_add_one, ← hn]
    simp

/-- From every session, a request of variable length gets through exactly when
its ciphertext is free of the end marker, or the cut is harmless. -/
theorem requestRoundTrips_iff (m : Machine) (hidle : m.link.frame.inFrame = false)
    (hdone : m.link.frame.handshakeDone = true) (cmd : VariableCmd) (payload : List UInt8)
    (hlen : payload.length + 7 ≤ MAX_FRAME_BYTES) :
    RequestRoundTrips m (hCmd cmd.code) payload ↔
      FRAME_END ∉ cipherBody (hCmd cmd.code) (m.link.frame.keyPrefix.bytes ++ payload) ∨
        HarmlessCut m.link.frame.keyPrefix cmd payload :=
  ⟨free_or_harmless_of_requestRoundTrips hidle hdone cmd hlen, fun h =>
    h.elim (requestRoundTrips_of_free hidle hdone cmd hlen)
      (requestRoundTrips_of_harmless hidle hdone cmd hlen)⟩

/-- Under the key `12 34` a status-block request gets through. -/
theorem status_request_roundtrip :
    RequestRoundTrips
      (nivonaFrameFeed Machine.factoryFresh (Client.buildHuFrame [0xB3, 0x89, 0x00, 0x48]))
      CMD_HS [] := by
  obtain ⟨-, hframe⟩ := feed_hu_answered (m := Machine.factoryFresh)
    rfl (show [0xB3, 0x89, 0x00, 0x48].length = 4 from rfl)
    (by rintro ⟨hdone, -⟩; cases hdone)
  refine (requestRoundTrips_iff _ (by rw [hframe]; rfl) (by rw [hframe]) .hs [] (by decide)).mpr
    (Or.inl ?_)
  rw [hframe, cipherBody]
  exact (nivonaRc4WithMasterKey_three 0x12 0x34 _).symm ▸ by decide

/-! ## A key that loses requests -/

/-- A new machine that has drawn the key `5A 00` in a handshake. -/
def lossyMachine : Machine :=
  nivonaFrameFeed
    (Machine.boot { Environment.benign with randomKeys := fun _ => ⟨0x5A, 0x00⟩ } Nvs.empty)
    (Client.buildHuFrame [0xB3, 0x89, 0x00, 0x48])

theorem inSession_lossyMachine : InSession lossyMachine.link.frame ⟨0x5A, 0x00⟩ := by
  obtain ⟨-, hframe⟩ := feed_hu_answered
    (m := Machine.boot { Environment.benign with randomKeys := fun _ => ⟨0x5A, 0x00⟩ } Nvs.empty)
    rfl (show [0xB3, 0x89, 0x00, 0x48].length = 4 from rfl)
    (by rintro ⟨hdone, -⟩; cases hdone)
  rw [lossyMachine, hframe]
  exact ⟨rfl, rfl, rfl⟩

/-- The first ciphertext byte under that key is an end marker. -/
theorem cipherBody_lossy (cmd : Cmd) (payload : List UInt8) :
    (cipherBody cmd ((⟨0x5A, 0x00⟩ : KeyPrefix).bytes ++ payload))[0]? = some FRAME_END := by
  rw [cipherBody, getElem?_nivonaRc4WithMasterKey, masterKeyByte_zero]
  rfl

/-- A serial-number request is lost under that key. -/
theorem serial_request_lost : ¬RequestRoundTrips lossyMachine CMD_HL [] := by
  have hs := inSession_lossyMachine
  have hzero := cipherBody_lossy CMD_HL []
  intro h
  have hcases := free_or_harmless_of_requestRoundTrips hs.inFrame hs.handshakeDone .hl
    (by decide) h
  rw [hs.keyPrefix] at hcases
  rcases hcases with hfree | ⟨-, -, -, hpre, -⟩
  · exact hfree (List.mem_of_getElem? hzero)
  · refine hpre (List.mem_of_getElem? (i := 0) ?_)
    rw [List.getElem?_take_of_lt (by simp)]
    exact hzero

end Nivona
