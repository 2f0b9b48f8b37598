import NivonaEmulator.LinkRule
import NivonaEmulator.ResponseRoundTrip

/-!
# The diagnostic record of two machines

The counters and captures depend on the bytes received and on the answers of the
stack, not on the core.  Of the session they see only whether it has begun and,
through the length of a handshake body, whether the key prefix was cut off.
-/

namespace Nivona

/-! ## Links with the same record -/

/-- Same counters and captures, same connection and answers, and the same bytes
received.  Keys, calls and the core may differ. -/
structure Link.SameRecord (l l' : Link) : Prop where
  diag : l.diag = l'.diag
  gatt : l.gatt = l'.gatt
  notifyResults : l.notifyResults = l'.notifyResults
  inFrame : l.frame.inFrame = l'.frame.inFrame
  buf : l.frame.buf = l'.frame.buf
  handshakeDone : l.frame.handshakeDone = l'.frame.handshakeDone

section

variable {l l' : Link}

theorem Link.SameRecord.onDiag (h : l.SameRecord l') {d d' : Diag} (hd : d = d') :
    Link.SameRecord { l with diag := d } { l' with diag := d' } := by
  obtain ⟨-, hgatt, hresults, hin, hbuf, hdone⟩ := h
  exact ⟨hd, hgatt, hresults, hin, hbuf, hdone⟩

/-- What is notified does not matter. -/
theorem Link.SameRecord.notify (h : l.SameRecord l') (data data' : List UInt8) :
    (nivonaGattNotify l data).SameRecord (nivonaGattNotify l' data') := by
  have hlisten : l.listening = l'.listening := by
    rw [Link.listening, Link.listening, h.gatt]
  have hcount : l.countAnswer = l'.countAnswer := by
    rw [Link.countAnswer, Link.countAnswer, hlisten, h.notifyResults, h.diag]
  have hleft : l.answersLeft = l'.answersLeft := by
    rw [Link.answersLeft, Link.answersLeft, hlisten, h.notifyResults]
  rw [nivonaGattNotify_spec, nivonaGattNotify_spec]
  exact ⟨hcount, h.gatt, hleft, h.inFrame, h.buf, h.handshakeDone⟩

/-- Only how often something is notified does. -/
theorem Link.SameRecord.notifyAll (h : l.SameRecord l') {chunks chunks' : List (List UInt8)}
    (hlen : chunks.length = chunks'.length) :
    (chunks.foldl nivonaGattNotify l).SameRecord (chunks'.foldl nivonaGattNotify l') := by
  induction chunks generalizing l l' chunks' with
  | nil =>
      obtain rfl : chunks' = [] := List.length_eq_zero_iff.mp hlen.symm
      exact h
  | cons chunk chunks ih =>
      rcases chunks' with _ | ⟨chunk', chunks'⟩
      · exact absurd hlen (by simp)
      · exact ih (h.notify chunk chunk') (by simpa using hlen)

/-- Replies of the same size are cut into as many pieces. -/
theorem Link.SameRecord.send (h : l.SameRecord l') {cmd cmd' : Cmd} {payload payload' : List UInt8}
    (enc enc' : Bool) (hcmd : cmd.length = cmd'.length)
    (hpayload : payload.length = payload'.length) :
    (nivonaFrameSend l cmd payload false enc).SameRecord
      (nivonaFrameSend l' cmd' payload' false enc') := by
  have hframe : (frameOf cmd (sendPrefix l false ++ payload) enc).length =
      (frameOf cmd' (sendPrefix l' false ++ payload') enc').length := by
    rw [length_frameOf, length_frameOf, List.length_append, List.length_append, hcmd, hpayload]
    rfl
  refine h.notifyAll ?_
  rw [frameSendChunks_eq, frameSendChunks_eq, hcmd, hframe]
  split
  · exact Chunks.length_chunks_congr _ hframe
  · rfl

end

/-! ## Handlers -/

section

variable {m m' : Machine} (h : m.link.SameRecord m'.link)
include h

theorem sameRecord_onDiag (f : Diag → Diag) :
    (m.onDiag f).link.SameRecord (m'.onDiag f).link :=
  h.onDiag (congrArg f h.diag)

theorem sameRecord_sendResponse (cmd : Cmd) {payload payload' : List UInt8}
    (hlen : payload.length = payload'.length) :
    (sendResponse m cmd payload).link.SameRecord (sendResponse m' cmd payload').link :=
  h.send true true rfl hlen

/-- Apart from the handshake, the record shows neither the payload nor the core. -/
theorem sameRecord_dispatchHandler {cmd : Cmd} (hcmd : cmd ≠ CMD_HANDSHAKE)
    (payload payload' : List UInt8) :
    (dispatchHandler m cmd payload).link.SameRecord
      (dispatchHandler m' cmd payload').link := by
  have hresp {c : Cmd} {p p' : List UInt8} (hlen : p.length = p'.length) :
      (sendResponse m c p).link.SameRecord (sendResponse m' c p').link :=
    sameRecord_sendResponse h c hlen
  have hack (c c' : Core) : (sendAck { m with core := c }).link.SameRecord
      (sendAck { m' with core := c' }).link :=
    h.send false false rfl rfl
  refine dispatchHandler_induction₂ (P := fun m m' => m.link.SameRecord m'.link)
    (fun hu => absurd hu hcmd) ?hx (hresp rfl) (hresp rfl) (hresp ?hl) (hresp rfl) (hresp rfl)
    (hresp ?hr) (hresp ?ha) (hresp ?hc) (hack _ _) (hack _ _) ?he (hack _ _) (hack _ _)
    (hack _ _) (hack _ _) ?un
  case hx =>
    refine sameRecord_onDiag (sameRecord_sendResponse h CMD_READ_STATUS ?_) fun d =>
      { d with hxResp := d.hxResp + 1 }
    rw [length_nivonaFsmPackStatus, length_nivonaFsmPackStatus]
  case hl => rw [length_zeroPadded, length_zeroPadded]
  case hr => simp only [List.length_append, length_putBe16, length_putBe32]
  case ha => simp only [List.length_append, length_putBe16, length_zeroPadded]
  case hc => rw [length_zeroPadded, length_zeroPadded]
  case he =>
    obtain ⟨cmd, hlen, hlink⟩ := handleHe_link m payload
    obtain ⟨cmd', hlen', hlink'⟩ := handleHe_link m' payload'
    rw [hlink, hlink']
    exact h.send false false (hlen.trans hlen'.symm) rfl
  case un =>
    exact (sameRecord_onDiag h fun d => { d with unhandled := d.unhandled + 1 }).send
      false false rfl rfl

/-- Nor does it show the key of a handshake. -/
theorem sameRecord_handleHu (payload : List UInt8) :
    (handleHu m payload).link.SameRecord (handleHu m' payload).link := by
  by_cases hlen : payload.length < 6
  · rw [handleHu_cut hlen, handleHu_cut hlen]
    exact sameRecord_onDiag h _
  · have hlen' : 6 ≤ payload.length := Nat.le_of_not_lt hlen
    rw [handleHu_whole hlen', handleHu_whole hlen']
    have hkeyed : Link.SameRecord
        (Machine.mk m.core { m.link.keyed with diag := m.link.diag.countHu payload }).link
        (Machine.mk m'.core { m'.link.keyed with diag := m'.link.diag.countHu payload }).link := by
      obtain ⟨hdiag, hgatt, hresults, hin, hbuf, -⟩ := h
      exact ⟨by rw [hdiag], hgatt, hresults, hin, hbuf, rfl⟩
    refine sameRecord_onDiag (sameRecord_sendResponse hkeyed CMD_HANDSHAKE ?_) _
    simp only [huResponse, List.length_append, KeyPrefix.length_bytes, length_nivonaHuVerifier]

end

/-! ## Parsing -/

/-- The bytes are a handshake request whose body starts with one of the two
session keys and not with the other. -/
def HuSplits (f f' : Frame) (p : List UInt8) : Prop :=
  f.handshakeDone = true ∧ ∃ body, p = frameOf CMD_HANDSHAKE body true ∧
    ¬(body.take KEY_PREFIX_LEN = f.keyPrefix.bytes ↔
      body.take KEY_PREFIX_LEN = f'.keyPrefix.bytes)

theorem stripPrefix_congr {f f' : Frame} (hdone : f.handshakeDone = f'.handshakeDone)
    (enc : Bool) {body : List UInt8}
    (h : f.handshakeDone = true → (body.take KEY_PREFIX_LEN = f.keyPrefix.bytes ↔
      body.take KEY_PREFIX_LEN = f'.keyPrefix.bytes)) :
    stripPrefix f enc body = stripPrefix f' enc body := by
  rw [stripPrefix, stripPrefix]
  refine if_congr ?_ rfl rfl
  rw [← hdone]
  constructor
  · rintro ⟨henc, hd, hlen, hkey⟩
    exact ⟨henc, hd, hlen, (h hd).mp hkey⟩
  · rintro ⟨henc, hd, hlen, hkey⟩
    exact ⟨henc, hd, hlen, (h hd).mpr hkey⟩

section

variable {m m' : Machine} (h : m.link.SameRecord m'.link)
include h

theorem sameRecord_nivonaDispatch {cmd : Cmd} {payload payload' : List UInt8}
    (hpayload : cmd = CMD_HANDSHAKE → payload = payload') :
    (nivonaDispatch m cmd payload).link.SameRecord (nivonaDispatch m' cmd payload').link := by
  have hcall : Link.SameRecord
      (Machine.mk m.core
        { m.link with calls := m.link.calls ++ [Call.dispatch cmd payload] }).link
      (Machine.mk m'.core
        { m'.link with calls := m'.link.calls ++ [Call.dispatch cmd payload'] }).link := by
    obtain ⟨hdiag, hgatt, hresults, hin, hbuf, hdone⟩ := h
    exact ⟨hdiag, hgatt, hresults, hin, hbuf, hdone⟩
  rw [nivonaDispatch, nivonaDispatch]
  by_cases hcmd : cmd = CMD_HANDSHAKE
  · obtain rfl := hpayload hcmd
    rw [dispatchHandler, dispatchHandler, if_pos hcmd, if_pos hcmd]
    exact sameRecord_handleHu hcall payload
  · exact sameRecord_dispatchHandler hcall hcmd payload payload'

/-- A frame leaves the same record unless it is a handshake request that splits
the two runs. -/
theorem sameRecord_tryParse (hsplit : ¬HuSplits m.link.frame m'.link.frame m.link.frame.buf) :
    (tryParse m).link.SameRecord (tryParse m').link := by
  cases hopen : openFrame m.link.frame.handshakeDone m.link.frame.buf with
  | error e =>
      have hopen' := hopen
      rw [h.handshakeDone, h.buf] at hopen'
      rw [tryParse_error hopen, tryParse_error hopen']
      exact sameRecord_onDiag h fun d => d.refusedBy e
  | ok o =>
      have hopen' := hopen
      rw [h.handshakeDone, h.buf] at hopen'
      have hcapture : m.link.diag.openedBy m.link.frame o =
          m'.link.diag.openedBy m'.link.frame o := by
        rw [Diag.openedBy, Diag.openedBy, captureDecrypt, captureDecrypt, h.diag,
          h.handshakeDone]
      have hdiag : (m.withDiag (m.link.diag.openedBy m.link.frame o)).link.SameRecord
          (m'.withDiag (m'.link.diag.openedBy m'.link.frame o)).link :=
        h.onDiag hcapture
      rw [tryParse_ok hopen, tryParse_ok hopen']
      by_cases hcs : o.recvCs ≠ o.expectCs
      · rw [if_pos hcs, if_pos hcs]
        exact hdiag
      · rw [if_neg hcs, if_neg hcs]
        refine sameRecord_nivonaDispatch hdiag ?_
        intro hcmd
        refine stripPrefix_congr h.handshakeDone o.encrypted ?_
        intro hdone
        -- in a session only encrypted frames open, and this one is a handshake request
        rcases openFrame_ok hopen with ⟨c, ct, hct, hbuf, ho⟩ | ⟨a, data, hnot, -⟩
        · obtain ⟨hframe, -⟩ := eq_frameOf_of_checksum hct ho (not_not.mp hcs)
          have hc : hCmd c = CMD_HANDSHAKE := by
            rw [← hcmd, ho]
          by_contra hne
          refine hsplit ⟨hdone, o.payload, ?_, hne⟩
          rw [hbuf, hframe, hc]
        · rw [hdone] at hnot
          exact absurd hnot Bool.noConfusion

/-! ## Accumulating -/

theorem sameRecord_setFrame {f f' : Frame} (hin : f.inFrame = f'.inFrame) (hbuf : f.buf = f'.buf)
    (hdone : f.handshakeDone = f'.handshakeDone) :
    (m.setFrame f).link.SameRecord (m'.setFrame f').link := by
  obtain ⟨hdiag, hgatt, hresults, -, -, -⟩ := h
  exact ⟨hdiag, hgatt, hresults, hin, hbuf, hdone⟩

theorem sameRecord_closeFrame : (closeFrame m).link.SameRecord (closeFrame m').link :=
  sameRecord_setFrame h rfl rfl h.handshakeDone

end

/-- The byte ends a frame. -/
def EndsFrame (m : Machine) (b : UInt8) : Prop :=
  m.link.frame.inFrame = true ∧ frameComplete (m.link.frame.buf ++ [b]) b = true

/-- The byte ends a handshake request that splits the two runs. -/
def SplitsAt (p : Machine × Machine) (b : UInt8) : Prop :=
  EndsFrame p.1 b ∧
    HuSplits p.1.link.frame p.2.link.frame (p.1.link.frame.buf ++ [b])

theorem sameRecord_feedByte {m m' : Machine} (h : m.link.SameRecord m'.link) {b : UInt8}
    (hsplit : ¬SplitsAt (m, m') b) :
    (feedByte m b).link.SameRecord (feedByte m' b).link := by
  by_cases hidle : m.link.frame.inFrame = false
  · have hidle' : m'.link.frame.inFrame = false := by rwa [h.inFrame] at hidle
    rw [feedByte, feedByte, if_pos hidle, if_pos hidle']
    refine iteInduction₂ (P := fun m m' : Machine => m.link.SameRecord m'.link) (fun _ => ?_)
      fun _ => h
    exact sameRecord_setFrame h rfl rfl h.handshakeDone
  · have hidle' : ¬m'.link.frame.inFrame = false := by rwa [h.inFrame] at hidle
    by_cases hroom : m.link.frame.buf.length < MAX_FRAME_BYTES
    · have hroom' : m'.link.frame.buf.length < MAX_FRAME_BYTES := by rwa [h.buf] at hroom
      have hpush : (pushByte m b hroom).link.SameRecord (pushByte m' b hroom').link :=
        sameRecord_setFrame h h.inFrame (congrArg (· ++ [b]) h.buf) h.handshakeDone
      rw [feedByte, feedByte, if_neg hidle, if_neg hidle', dif_pos hroom, dif_pos hroom']
      dsimp only
      rw [← hpush.buf]
      refine iteInduction₂ (P := fun m m' : Machine => m.link.SameRecord m'.link) ?_
        fun _ => hpush
      intro hcomplete
      refine sameRecord_closeFrame (sameRecord_tryParse hpush ?_)
      exact fun hs => hsplit ⟨⟨by simpa using hidle, hcomplete⟩, hs⟩
    · have hroom' : ¬m'.link.frame.buf.length < MAX_FRAME_BYTES := by rwa [h.buf] at hroom
      rw [feedByte, feedByte, if_neg hidle, if_neg hidle', dif_neg hroom, dif_neg hroom']
      exact sameRecord_closeFrame h

/-! ## A split shows -/

theorem huResp_nivonaFrameSend (l : Link) (cmd : Cmd) (payload : List UInt8) (kp enc : Bool) :
    (nivonaFrameSend l cmd payload kp enc).diag.huResp = l.diag.huResp := by
  rw [nivonaFrameSend]
  generalize frameSendChunks l cmd payload kp enc = chunks
  induction chunks generalizing l with
  | nil => rfl
  | cons chunk chunks ih =>
      rw [List.foldl_cons, ih, nivonaGattNotify_spec]
      dsimp only
      rw [Link.countAnswer]
      split
      · split <;> rfl
      · rfl

/-- A handshake is answered when its body is whole. -/
theorem huResp_handleHu (m : Machine) (payload : List UInt8) :
    (handleHu m payload).link.diag.huResp =
      if payload.length < 6 then m.link.diag.huResp else m.link.diag.huResp + 1 := by
  split
  · rename_i hlen
    rw [handleHu_cut hlen]
    rfl
  · rename_i hlen
    rw [handleHu_whole (Nat.le_of_not_lt hlen)]
    have hcount : (m.link.diag.countHu payload).huResp = m.link.diag.huResp := by
      rw [Diag.countHu]
      split <;> rfl
    have hsent := huResp_nivonaFrameSend
      { m.link.keyed with diag := m.link.diag.countHu payload } CMD_HANDSHAKE
      (huResponse (payload.take 4) (m.link.randomKeys 0)) false true
    rw [hcount] at hsent
    exact congrArg (· + 1) hsent

/-- A complete handshake request has a body of six bytes. -/
theorem length_of_frameComplete {body : List UInt8}
    (h : frameComplete (frameOf CMD_HANDSHAKE body true) FRAME_END = true) :
    body.length = 6 := by
  have hframe : frameOf CMD_HANDSHAKE body true = frameOf (hCmd 0x55) body true := rfl
  rw [hframe, frameOf_hCmd, frameComplete_hCmd, if_pos (by decide)] at h
  simp only [List.length_append, length_cipherBody, List.length_singleton, beq_iff_eq] at h
  have hsize : expectedRequestSize 0x55 = 11 := rfl
  omega

/-- In a session a handshake request is answered unless its body starts with the
session key. -/
theorem huResp_tryParse {m : Machine} {body : List UInt8} (hlen : body.length = 6)
    (hdone : m.link.frame.handshakeDone = true)
    (hbuf : m.link.frame.buf = frameOf CMD_HANDSHAKE body true) :
    (tryParse m).link.diag.huResp =
      if body.take KEY_PREFIX_LEN = m.link.frame.keyPrefix.bytes then m.link.diag.huResp
      else m.link.diag.huResp + 1 := by
  have hopen : openFrame m.link.frame.handshakeDone m.link.frame.buf =
      .ok (openedOf 0x55 body) := by
    rw [hbuf]
    exact openFrame_frameOf _ 0x55 body
  have hdispatch (n : Machine) (payload : List UInt8) :
      (nivonaDispatch n CMD_HANDSHAKE payload).link.diag.huResp =
        if payload.length < 6 then n.link.diag.huResp else n.link.diag.huResp + 1 := by
    rw [nivonaDispatch, dispatchHandler, if_pos rfl, huResp_handleHu]
  have hcount : (m.withDiag (m.link.diag.openedBy m.link.frame
      (openedOf 0x55 body))).link.diag.huResp = m.link.diag.huResp := by
    simp only [Machine.withDiag, Diag.openedBy]
    split <;> rfl
  rw [tryParse_ok hopen, if_neg (by simp), openedOf_payload]
  refine (hdispatch _ _).trans ?_
  rw [hcount]
  by_cases hkey : body.take KEY_PREFIX_LEN = m.link.frame.keyPrefix.bytes
  · have hstrip : stripPrefix m.link.frame true body = body.drop KEY_PREFIX_LEN := by
      rw [stripPrefix, if_pos ⟨rfl, hdone, by rw [hlen]; decide, hkey⟩]
    rw [if_pos hkey, if_pos]
    rw [openedOf, hstrip, List.length_drop, hlen]
    decide
  · have hstrip : stripPrefix m.link.frame true body = body := by
      rw [stripPrefix, if_neg]
      exact fun hall => hkey hall.2.2.2
    rw [if_neg hkey, if_neg]
    rw [openedOf, hstrip, hlen]
    decide

/-- The byte that ends it counts the answer. -/
theorem huResp_feedByte {m : Machine} {b : UInt8} {body : List UInt8}
    (hin : m.link.frame.inFrame = true) (hdone : m.link.frame.handshakeDone = true)
    (hc : frameComplete (m.link.frame.buf ++ [b]) b = true)
    (hbuf : m.link.frame.buf ++ [b] = frameOf CMD_HANDSHAKE body true) :
    (feedByte m b).link.diag.huResp =
      if body.take KEY_PREFIX_LEN = m.link.frame.keyPrefix.bytes then m.link.diag.huResp
      else m.link.diag.huResp + 1 := by
  have hshape : frameOf CMD_HANDSHAKE body true =
      (FRAME_START :: 0x48 :: 0x55 :: cipherBody (hCmd 0x55) body) ++ [FRAME_END] := rfl
  obtain ⟨-, hlast⟩ := List.append_inj' (hbuf.trans hshape) rfl
  obtain rfl : b = FRAME_END := List.singleton_inj.mp hlast
  have hlen : body.length = 6 := by
    rw [hbuf] at hc
    exact length_of_frameComplete hc
  have hroom : m.link.frame.buf.length < MAX_FRAME_BYTES := by
    have hsize := congrArg List.length hbuf
    have hcmd : CMD_HANDSHAKE.length = 2 := rfl
    rw [List.length_append, List.length_singleton, length_frameOf] at hsize
    rw [MAX_FRAME_BYTES]
    omega
  rw [feedByte_ends hin hroom hc]
  exact huResp_tryParse (m := m.receiving _ (length_push_le hroom)) hlen hdone hbuf

/-- A handshake request that splits two runs shows in the counter of answers. -/
theorem huResp_ne_of_splitsAt {m m' : Machine} (h : m.link.SameRecord m'.link) {b : UInt8}
    (hsplit : SplitsAt (m, m') b) :
    (feedByte m b).link.diag.huResp ≠ (feedByte m' b).link.diag.huResp := by
  obtain ⟨⟨hin, hc⟩, hdone, body, hbuf, hne⟩ := hsplit
  dsimp only at hin hc hdone hbuf hne
  have hleft := huResp_feedByte hin hdone hc hbuf
  rw [h.buf] at hc hbuf
  have hright := huResp_feedByte (h.inFrame ▸ hin) (h.handshakeDone ▸ hdone) hc hbuf
  have hsucc (x : UInt32) : x + 1 ≠ x := by
    intro hx
    have hone : x + 1 = x + 0 := by rw [hx, UInt32.add_zero]
    exact absurd ((UInt32.add_right_inj x).mp hone) (by decide)
  rw [hleft, hright, h.diag]
  by_cases hkey : body.take KEY_PREFIX_LEN = m.link.frame.keyPrefix.bytes
  · have hkey' : body.take KEY_PREFIX_LEN ≠ m'.link.frame.keyPrefix.bytes :=
      fun hk => hne ⟨fun _ => hk, fun _ => hkey⟩
    rw [if_pos hkey, if_neg hkey']
    exact (hsucc _).symm
  · have hkey' : body.take KEY_PREFIX_LEN = m'.link.frame.keyPrefix.bytes := by
      by_contra hk
      exact hne ⟨fun hx => absurd hx hkey, fun hx => absurd hx hk⟩
    rw [if_neg hkey, if_pos hkey']
    exact hsucc _

end Nivona
