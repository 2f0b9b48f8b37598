import NivonaEmulator.Client
import NivonaEmulator.FrameFeed

/-!
# Sessions

The record of dispatched commands and notifications, what one dispatch does to
the session, and what one request frame does to the machine.
-/

namespace Nivona

/-! ## The record of calls -/

/-- The dispatched commands of a record, with their payloads. -/
def dispatches (calls : List Call) : List (Cmd × List UInt8) :=
  calls.filterMap fun
    | .dispatch cmd payload => some (cmd, payload)
    | .notify _ => none

/-- The notifications of a record. -/
def notifies (calls : List Call) : List (List UInt8) :=
  calls.filterMap fun
    | .dispatch _ _ => none
    | .notify data => some data

@[simp] theorem dispatches_append (as bs : List Call) :
    dispatches (as ++ bs) = dispatches as ++ dispatches bs :=
  List.filterMap_append

@[simp] theorem notifies_append (as bs : List Call) :
    notifies (as ++ bs) = notifies as ++ notifies bs :=
  List.filterMap_append

@[simp] theorem dispatches_map_notify (cs : List (List UInt8)) :
    dispatches (cs.map Call.notify) = [] := by
  simp [dispatches, List.filterMap_map]

@[simp] theorem notifies_map_notify (cs : List (List UInt8)) :
    notifies (cs.map Call.notify) = cs := by
  simp [notifies, List.filterMap_map]

@[simp] theorem dispatches_singleton (cmd : Cmd) (payload : List UInt8) :
    dispatches [Call.dispatch cmd payload] = [(cmd, payload)] := rfl

@[simp] theorem notifies_singleton_dispatch (cmd : Cmd) (payload : List UInt8) :
    notifies [Call.dispatch cmd payload] = [] := rfl

/-! ## The handshake handler -/

/-- The session after the next key has been drawn. -/
def Link.keyed (l : Link) : Link :=
  nivonaFrameMarkHandshake l.drawKey.2 l.drawKey.1

/-- The counters after a handshake request with a whole body. -/
def Diag.countHu (d : Diag) (payload : List UInt8) : Diag :=
  if (payload.drop 4).take 2 = nivonaHuVerifier payload 0 4 then
    { d with huRx := d.huRx + 1, huVerOk := d.huVerOk + 1 }
  else { d with huRx := d.huRx + 1, huVerBad := d.huVerBad + 1 }

/-- A handshake request with a whole body draws a key and answers with it. -/
theorem handleHu_whole {m : Machine} {payload : List UInt8} (h : 6 ≤ payload.length) :
    handleHu m payload =
      (sendResponse
        { m with link := { m.link.keyed with diag := m.link.diag.countHu payload } }
        CMD_HANDSHAKE (huResponse (payload.take 4) (m.link.randomKeys 0))).onDiag
          fun d => { d with huResp := d.huResp + 1 } := by
  rw [handleHu, if_neg (by omega)]
  rfl

/-- One that is cut short is only counted. -/
theorem handleHu_cut {m : Machine} {payload : List UInt8} (h : payload.length < 6) :
    handleHu m payload = m.onDiag fun d => { d with huRx := d.huRx + 1 } := by
  rw [handleHu, if_pos h]
  rfl

theorem handleHu_short {m : Machine} {payload : List UInt8} (h : payload.length < 6) :
    ∃ d, handleHu m payload = m.withDiag d :=
  ⟨_, handleHu_cut h⟩

/-- A full handshake request draws a key and sends one response frame. -/
theorem handleHu_long {m : Machine} {payload : List UInt8} (h : 6 ≤ payload.length) :
    ∃ diag results wire, (handleHu m payload).link =
      { m.link.keyed with
        calls := m.link.calls ++ [Call.notify (frameOf CMD_HANDSHAKE
          (huResponse (payload.take 4) (m.link.randomKeys 0)) true)]
        diag := diag, notifyResults := results, wire := wire } := by
  have hlen : (payload.take 4).length = 4 := by
    rw [List.length_take]
    omega
  have hresp : (huResponse (payload.take 4) (m.link.randomKeys 0)).length = 8 := by
    simp only [huResponse, List.length_append, hlen, KeyPrefix.length_bytes,
      length_nivonaHuVerifier, KEY_PREFIX_LEN]
  -- the response is thirteen bytes, one notification
  have hchunks (l : Link) : frameSendChunks l CMD_HANDSHAKE
      (huResponse (payload.take 4) (m.link.randomKeys 0)) false true =
        [frameOf CMD_HANDSHAKE (huResponse (payload.take 4) (m.link.randomKeys 0)) true] := by
    have hroom : ¬ MAX_FRAME_BYTES < 1 + CMD_HANDSHAKE.length + (sendPrefix l false).length +
        (huResponse (payload.take 4) (m.link.randomKeys 0)).length + 1 + 1 := by
      rw [hresp]
      simp [sendPrefix, CMD_HANDSHAKE, MAX_FRAME_BYTES]
    rw [frameSendChunks, if_neg (by decide), if_neg hroom]
    apply Chunks.chunks_of_length_le (by simp [frameOf])
    rw [show CMD_HANDSHAKE = hCmd 0x55 from rfl, length_frameOf_hCmd]
    simp [sendPrefix, hresp, BLE_MTU]
  rw [handleHu_whole h]
  obtain ⟨d, r, w, hsend⟩ := nivonaFrameSend_eq
    { m.link.keyed with diag := m.link.diag.countHu payload }
    CMD_HANDSHAKE (huResponse (payload.take 4) (m.link.randomKeys 0)) false true
  rw [hchunks] at hsend
  rw [sendResponse, hsend]
  exact ⟨_, _, _, rfl⟩

/-! ## One dispatch -/

/-- A dispatch is recorded, and its handler only adds notifications. -/
theorem nivonaDispatch_calls (m : Machine) (cmd : Cmd) (payload : List UInt8) :
    ∃ cs : List (List UInt8), (nivonaDispatch m cmd payload).link.calls =
      m.link.calls ++ Call.dispatch cmd payload :: cs.map Call.notify := by
  rw [nivonaDispatch]
  by_cases hcmd : cmd = CMD_HANDSHAKE
  · subst hcmd
    rw [dispatchHandler, if_pos rfl]
    by_cases hlen : payload.length < 6
    · obtain ⟨d, hd⟩ := handleHu_short hlen
      rw [hd]
      exact ⟨[], by simp⟩
    · obtain ⟨d, r, w, hlink⟩ := handleHu_long (Nat.le_of_not_lt hlen)
      rw [hlink]
      exact ⟨[frameOf CMD_HANDSHAKE (huResponse (payload.take 4) (m.link.randomKeys 0)) true],
        by simp⟩
  · obtain ⟨cs, hcs⟩ := (sends_dispatchHandler _ payload hcmd).calls_eq
    exact ⟨cs, by rw [hcs]; simp⟩

/-- Every dispatch is recorded once, and nothing else is dispatched by it. -/
theorem dispatches_nivonaDispatch (m : Machine) (cmd : Cmd) (payload : List UInt8) :
    dispatches (nivonaDispatch m cmd payload).link.calls =
      dispatches m.link.calls ++ [(cmd, payload)] := by
  obtain ⟨cs, hcs⟩ := nivonaDispatch_calls m cmd payload
  rw [hcs, List.append_cons, dispatches_append, dispatches_append, dispatches_map_notify,
    dispatches_singleton, List.append_nil]

/-- Outside the action commands a dispatch leaves the core alone. -/
theorem nivonaDispatch_core (m : Machine) {cmd : Cmd} (payload : List UInt8)
    (hcmd : cmd ∉ ACTION_CMDS) : (nivonaDispatch m cmd payload).core = m.core :=
  dispatchHandler_core _ payload hcmd

/-- Apart from the handshake, a dispatch leaves session and parser alone. -/
theorem nivonaDispatch_frame (m : Machine) {cmd : Cmd} (payload : List UInt8)
    (hcmd : cmd ≠ CMD_HANDSHAKE) :
    (nivonaDispatch m cmd payload).link.frame = m.link.frame :=
  (sends_dispatchHandler _ payload hcmd).frame_eq

/-! ## One request frame -/

theorem stripPrefix_receiving (m : Machine) {buf : List UInt8}
    (h : buf.length ≤ MAX_FRAME_BYTES) (enc : Bool) (payload : List UInt8) :
    stripPrefix (m.receiving buf h).link.frame enc payload =
      stripPrefix m.link.frame enc payload := rfl

theorem expectedRequestSize_le (c : UInt8) : expectedRequestSize c ≤ 73 := by
  rw [expectedRequestSize]
  iterate 14 refine iteInduction (motive := fun n => n ≤ 73) (fun _ => by decide) fun _ => ?_
  decide

/-- The shortest request of fixed size has seven bytes. -/
theorem seven_le_expectedRequestSize {c : UInt8} (h : 0 < expectedRequestSize c) :
    7 ≤ expectedRequestSize c := by
  have hcases : expectedRequestSize c = 0 ∨ 7 ≤ expectedRequestSize c := by
    rw [expectedRequestSize]
    iterate 14 refine iteInduction (motive := fun n => n = 0 ∨ 7 ≤ n) (fun _ => by simp) fun _ => ?_
    simp
  omega

/-- A request frame that is not finished early is dispatched at its end. -/
theorem feed_hCmd {m : Machine} (hidle : m.link.frame.inFrame = false) {c : UInt8}
    {body : List UInt8} (h : (frameOf (hCmd c) body true).length ≤ MAX_FRAME_BYTES)
    (hinc : ∀ pre b, pre ++ [b] <+: 0x48 :: c :: cipherBody (hCmd c) body →
      frameComplete (FRAME_START :: (pre ++ [b])) b = false)
    (hlast : frameComplete (frameOf (hCmd c) body true) FRAME_END = true) :
    ∃ d, nivonaFrameFeed m (frameOf (hCmd c) body true) =
      closeFrame (nivonaDispatch ((m.receiving (frameOf (hCmd c) body true) h).withDiag d)
        (hCmd c) (stripPrefix m.link.frame true body)) := by
  have hshape : frameOf (hCmd c) body true =
      FRAME_START :: ((0x48 :: c :: cipherBody (hCmd c) body) ++ [FRAME_END]) := rfl
  obtain ⟨d, hd⟩ := tryParse_frameOf (m := m.receiving (frameOf (hCmd c) body true) h) rfl
  refine ⟨d, ?_⟩
  rw [feed_frame hidle hshape h hinc hlast, hd, stripPrefix_receiving]

/-- No proper prefix of as many bytes as a request has is complete. -/
theorem incomplete_ofSize {c : UInt8} {ct : List UInt8}
    (hsize : expectedRequestSize c = ct.length + 4) (pre : List UInt8) (b : UInt8)
    (hpre : pre ++ [b] <+: 0x48 :: c :: ct) :
    frameComplete (FRAME_START :: (pre ++ [b])) b = false := by
  refine incomplete_hCmd (by omega) (by omega) ?_ pre b hpre
  intro pre b hpre
  have hlen := hpre.length_le
  rw [List.length_append, List.length_singleton] at hlen
  rw [frameComplete_hCmd, if_pos (by omega), List.length_append, List.length_singleton,
    beq_eq_false_iff_ne]
  omega

/-- No proper prefix of a request of fixed size has its size. -/
theorem incomplete_fixedSize {c : UInt8} {body : List UInt8}
    (hsize : expectedRequestSize c = body.length + 5) (pre : List UInt8) (b : UInt8)
    (hpre : pre ++ [b] <+: 0x48 :: c :: cipherBody (hCmd c) body) :
    frameComplete (FRAME_START :: (pre ++ [b])) b = false :=
  incomplete_ofSize (by rw [length_cipherBody]; omega) pre b hpre

/-- A request of fixed size is dispatched once it is complete, whatever bytes
its ciphertext holds. -/
theorem feed_fixedSize {m : Machine} (hidle : m.link.frame.inFrame = false) {c : UInt8}
    {body : List UInt8} (hsize : expectedRequestSize c = body.length + 5) :
    ∃ d h, nivonaFrameFeed m (frameOf (hCmd c) body true) =
      closeFrame (nivonaDispatch ((m.receiving (frameOf (hCmd c) body true) h).withDiag d)
        (hCmd c) (stripPrefix m.link.frame true body)) := by
  have hle : (frameOf (hCmd c) body true).length ≤ MAX_FRAME_BYTES := by
    have := expectedRequestSize_le c
    rw [length_frameOf_hCmd, MAX_FRAME_BYTES]
    omega
  have hlast : frameComplete (frameOf (hCmd c) body true) FRAME_END = true := by
    rw [frameOf_hCmd, frameComplete_hCmd, if_pos (by omega)]
    simp [hsize]
  obtain ⟨d, hd⟩ := feed_hCmd hidle hle (incomplete_fixedSize hsize) hlast
  exact ⟨d, hle, hd⟩

/-- A request of variable size runs up to the first end marker. -/
theorem incomplete_variableSize {c : UInt8} {ct : List UInt8}
    (hsize : expectedRequestSize c = 0) (hc : c ≠ FRAME_END) (hct : FRAME_END ∉ ct)
    (pre : List UInt8) (b : UInt8) (hpre : pre ++ [b] <+: 0x48 :: c :: ct) :
    frameComplete (FRAME_START :: (pre ++ [b])) b = false := by
  refine incomplete_hCmd (fun _ => hc) (by omega) ?_ pre b hpre
  intro pre b hpre
  have hb : b ∈ ct := hpre.subset (by simp)
  rw [frameComplete_hCmd, if_neg (by omega), beq_eq_false_iff_ne]
  rintro rfl
  exact hct hb

/-- In a session the prefix is cut off the frames that carry it. -/
theorem stripPrefix_of_prefixed {f : Frame} (hdone : f.handshakeDone = true)
    (payload : List UInt8) :
    stripPrefix f true (f.keyPrefix.bytes ++ payload) = payload := by
  have hlen : f.keyPrefix.bytes.length = KEY_PREFIX_LEN := rfl
  rw [stripPrefix, if_pos ⟨rfl, hdone, by simp [hlen], by rw [← hlen, List.take_left]⟩, ← hlen,
    List.drop_left]

end Nivona
