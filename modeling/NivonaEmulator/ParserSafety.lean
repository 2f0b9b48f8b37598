import NivonaEmulator.FrameFeed
import NivonaEmulator.Lib.CheckedBuffer
import NivonaEmulator.MachineRun
import NivonaEmulator.Session

/-!
# The parser on its buffers

The accumulator and the frame parser once more, on the four static buffers and
the lengths they keep, with every access checked.  No stream of bytes makes an
access fail, and what is computed is what the parser of the machine computes.
-/

namespace Nivona

open CheckedBuffer

/-- The static variables of the parser, and the machine they belong to. -/
structure RawParser where
  machine : Machine
  buf : Vector UInt8 MAX_FRAME_BYTES
  len : ℕ
  inFrame : Bool
  plain : Vector UInt8 MAX_FRAME_BYTES
  csIn : Vector UInt8 MAX_FRAME_BYTES
  lastDecrypt : Vector UInt8 32
  lastDecryptLen : ℕ

namespace RawParser

/-- The machine with the accumulated bytes and the capture that the buffers hold. -/
def view (r : RawParser) : Machine :=
  { r.machine with link := { r.machine.link with
    frame := r.machine.link.frame.withBuf r.inFrame (r.buf.toList.take r.len)
      ((List.length_take_le' _ _).trans r.buf.length_toList.le)
    diag := { r.machine.link.diag with
      lastDecrypt := r.lastDecrypt.toList.take r.lastDecryptLen } } }

def onDiag (r : RawParser) (f : Diag → Diag) : RawParser :=
  { r with machine := r.machine.onDiag f }

def handshakeDone (r : RawParser) : Bool := r.machine.link.frame.handshakeDone

/-- `memcpy` of at most 32 bytes to the capture, without the session-key prefix. -/
def capture (r : RawParser) (plain : Vector UInt8 MAX_FRAME_BYTES) (encrypted : Bool)
    (dataLen : ℕ) : Option (Vector UInt8 32 × ℕ) :=
  let skip := if encrypted && r.handshakeDone then KEY_PREFIX_LEN else 0
  if skip < dataLen then do
    let capLen ← sub dataLen skip
    let capLen := if 32 < capLen then 32 else capLen
    let bytes ← slice plain skip capLen
    let lastDecrypt ← copyTo r.lastDecrypt 0 bytes
    some (lastDecrypt, capLen)
  else some (r.lastDecrypt, 0)

/-- The payload that goes to the dispatcher: without a prefix that matches. -/
def actualPayload (r : RawParser) (encrypted : Bool) (payloadLen : ℕ) : Option (List UInt8) :=
  if encrypted ∧ r.handshakeDone ∧ KEY_PREFIX_LEN ≤ payloadLen then do
    let sent ← slice r.plain 0 KEY_PREFIX_LEN
    if sent = r.machine.link.frame.keyPrefix.bytes then do
      let actualLen ← sub payloadLen KEY_PREFIX_LEN
      slice r.plain KEY_PREFIX_LEN actualLen
    else slice r.plain 0 payloadLen
  else slice r.plain 0 payloadLen

/-- The checksum of command and payload, summed up in a buffer of its own. -/
def expectCs (r : RawParser) (cmd : List UInt8) (payloadLen : ℕ) :
    Option (Vector UInt8 MAX_FRAME_BYTES × UInt8) := do
  let csIn ← copyTo r.csIn 0 cmd
  let payload ← slice r.plain 0 payloadLen
  let csIn ← copyTo csIn cmd.length payload
  let summed ← slice csIn 0 (cmd.length + payloadLen)
  some (csIn, checksum summed)

/-- After the body has been decrypted: capture, checksum, dispatch. -/
def parsePlain (r : RawParser) (cmd : List UInt8) (encrypted : Bool) (dataLen : ℕ) :
    Option RawParser := do
  let payloadLen ← sub dataLen 1
  let recvCs ← load r.plain payloadLen
  let (lastDecrypt, lastDecryptLen) ← r.capture r.plain encrypted dataLen
  let (csIn, expectCs) ← r.expectCs cmd payloadLen
  let r := { r with lastDecrypt := lastDecrypt, lastDecryptLen := lastDecryptLen, csIn := csIn }
  let r := r.onDiag fun d => { d with lastRecvCs := recvCs, lastExpectCs := expectCs }
  if recvCs ≠ expectCs then do
    -- the log line prints the first bytes of the body
    let _ ← slice r.plain 0 (max 4 (min 7 payloadLen))
    some (r.onDiag fun d => { d with csMismatch := d.csMismatch + 1 })
  else do
    let payload ← r.actualPayload encrypted payloadLen
    let r := r.onDiag fun d => { d with frameParsed := d.frameParsed + 1 }
    some { r with machine := nivonaDispatch r.view cmd payload }

/-- Once the command is known: its bytes, and the body between it and the end marker. -/
def parseBody (r : RawParser) (cmdLen : ℕ) (encrypted : Bool) : Option RawParser := do
  let cmd ← slice r.buf 1 cmdLen
  -- `char cmd[3]`
  let _ ← copyTo (Vector.replicate 3 0) 0 cmd
  let dataEnd ← sub r.len 1
  let dataStart := 1 + cmdLen
  if dataEnd ≤ dataStart then some r
  else do
    let dataLen ← sub dataEnd dataStart
    let data ← slice r.buf dataStart dataLen
    let plain ← copyTo r.plain 0 (if encrypted then nivonaRc4WithMasterKey data else data)
    { r with plain := plain }.parsePlain cmd encrypted dataLen

/-- From the length check on. -/
def parseReceived (r : RawParser) : Option RawParser :=
  if r.len < 4 then some r
  else do
    let first ← load r.buf 0
    let lastIndex ← sub r.len 1
    let last ← load r.buf lastIndex
    if first ≠ FRAME_START ∨ last ≠ FRAME_END then some r
    else do
      let avail ← sub r.len 2
      let body ← slice r.buf 1 avail
      match cmdInfo r.handshakeDone body with
      | none => do
          let _ ← slice r.buf 1 2
          some (r.onDiag fun d => { d with unknownCmd := d.unknownCmd + 1 })
      | some (cmdLen, encrypted) => r.parseBody cmdLen encrypted

/-- The bytes that the first log line prints. -/
def logEnds (r : RawParser) : Option Unit :=
  if 0 < r.len then do
    let _ ← load r.buf 0
    let lastIndex ← sub r.len 1
    let _ ← load r.buf lastIndex
    some ()
  else some ()

/-- `try_parse`; no handler feeds the parser, so that it never finds itself running. -/
def tryParse (r : RawParser) : Option RawParser := do
  let r := r.onDiag fun d => { d with tryParseCalled := d.tryParseCalled + 1 }
  r.logEnds
  r.parseReceived

/-- The expected size, once the command bytes are there. -/
def expected (r : RawParser) : Option ℕ :=
  if 3 ≤ r.len then do
    let first ← load r.buf 1
    if first = 0x48 then do
      let second ← load r.buf 2
      some (expectedRequestSize second)
    else some 0
  else some 0

/-- One byte of `nivona_frame_feed`. -/
def feedByte (r : RawParser) (b : UInt8) : Option RawParser :=
  if r.inFrame = false then
    if b = FRAME_START then do
      let buf ← store r.buf 0 b
      some { r with buf := buf, len := 1, inFrame := true }
    else some r
  else if MAX_FRAME_BYTES ≤ r.len then some { r with len := 0, inFrame := false }
  else do
    let buf ← store r.buf r.len b
    let r := { r with buf := buf, len := r.len + 1 }
    let expected ← r.expected
    if (if 0 < expected then r.len = expected else b = FRAME_END) then do
      let r ← r.tryParse
      some { r with len := 0, inFrame := false }
    else some r

/-- `nivona_frame_feed`. -/
def feed (r : RawParser) (data : List UInt8) : Option RawParser := data.foldlM feedByte r

/-- `nivona_frame_reset`. -/
def reset (r : RawParser) : RawParser :=
  { r with
    len := 0
    inFrame := false
    machine := { r.machine with link := nivonaFrameReset r.machine.link } }

/-- The parser at power-on. -/
def boot (m : Machine) : RawParser where
  machine := m
  buf := Vector.replicate MAX_FRAME_BYTES 0
  len := 0
  inFrame := false
  plain := Vector.replicate MAX_FRAME_BYTES 0
  csIn := Vector.replicate MAX_FRAME_BYTES 0
  lastDecrypt := Vector.replicate 32 0
  lastDecryptLen := 0

end RawParser

/-- The calls into the parser; between them the rest of the program leaves the machine
as it likes, apart from the variables of the parser. -/
inductive ParserCall
  | feed (data : List UInt8)
  | reset
  | elsewhere (m : Machine)

def RawParser.call (r : RawParser) : ParserCall → Option RawParser
  | .feed data => r.feed data
  | .reset => some r.reset
  | .elsewhere m => some { r with machine := m }

/-- `m'` with the accumulator and the capture of `m`. -/
def Machine.withParserOf (m' m : Machine) : Machine :=
  { m' with link := { m'.link with
    frame := m'.link.frame.withBuf m.link.frame.inFrame m.link.frame.buf m.link.frame.length_buf
    diag := { m'.link.diag with lastDecrypt := m.link.diag.lastDecrypt } } }

/-- The same calls on the machine. -/
def Machine.parserCall (m : Machine) : ParserCall → Machine
  | .feed data => nivonaFrameFeed m data
  | .reset => { m with link := nivonaFrameReset m.link }
  | .elsewhere m' => m'.withParserOf m

/-! ## Handlers and the parser's variables -/

/-- The accumulator and the capture are the same. -/
structure Link.KeepsParser (l l' : Link) : Prop where
  buf : l'.frame.buf = l.frame.buf
  inFrame : l'.frame.inFrame = l.frame.inFrame
  lastDecrypt : l'.diag.lastDecrypt = l.diag.lastDecrypt

namespace Link.KeepsParser

theorem trans {l₁ l₂ l₃ : Link} (h : l₁.KeepsParser l₂) (h' : l₂.KeepsParser l₃) :
    l₁.KeepsParser l₃ :=
  ⟨h'.buf.trans h.buf, h'.inFrame.trans h.inFrame, h'.lastDecrypt.trans h.lastDecrypt⟩

/-- Counting in the diagnostics leaves the capture alone. -/
theorem count (l : Link) {d : Diag} (h : d.lastDecrypt = l.diag.lastDecrypt) :
    l.KeepsParser { l with diag := d } :=
  ⟨rfl, rfl, h⟩

theorem notify (l : Link) (data : List UInt8) : l.KeepsParser (nivonaGattNotify l data) := by
  rw [nivonaGattNotify_spec]
  refine ⟨rfl, rfl, ?_⟩
  rw [Link.countAnswer]
  split
  · split <;> rfl
  · rfl

theorem send (l : Link) (cmd : Cmd) (payload : List UInt8) (kp enc : Bool) :
    l.KeepsParser (nivonaFrameSend l cmd payload kp enc) := by
  rw [nivonaFrameSend]
  generalize frameSendChunks l cmd payload kp enc = chunks
  induction chunks generalizing l with
  | nil => exact ⟨rfl, rfl, rfl⟩
  | cons chunk chunks ih => exact (notify l chunk).trans (ih _)

theorem handleHu (m : Machine) (payload : List UInt8) :
    m.link.KeepsParser (Nivona.handleHu m payload).link := by
  by_cases hlen : payload.length < 6
  · rw [handleHu_cut hlen]
    exact ⟨rfl, rfl, rfl⟩
  · rw [handleHu_whole (Nat.le_of_not_lt hlen)]
    have hcount : (m.link.diag.countHu payload).lastDecrypt = m.link.diag.lastDecrypt := by
      rw [Diag.countHu]
      split <;> rfl
    have hkeyed : m.link.KeepsParser { m.link.keyed with diag := m.link.diag.countHu payload } :=
      ⟨rfl, rfl, hcount⟩
    have hsent := hkeyed.trans (send _ CMD_HANDSHAKE
      (huResponse (payload.take 4) (m.link.randomKeys 0)) false true)
    exact hsent.trans (count _ rfl)

theorem dispatch (m : Machine) (cmd : Cmd) (payload : List UInt8) :
    m.link.KeepsParser (nivonaDispatch m cmd payload).link := by
  let d : Machine :=
    { m with link := { m.link with calls := m.link.calls ++ [Call.dispatch cmd payload] } }
  have hresp (c : Cmd) (p : List UInt8) : d.link.KeepsParser (sendResponse d c p).link :=
    send _ _ _ _ _
  have hack (core : Core) : d.link.KeepsParser (sendAck { d with core := core }).link :=
    send _ _ _ _ _
  have hx : d.link.KeepsParser (handleHx d).link :=
    (hresp CMD_READ_STATUS (nivonaFsmPackStatus d.core.status)).trans (count _ rfl)
  have hhe : d.link.KeepsParser (handleHe d payload).link := by
    obtain ⟨c, -, hlink⟩ := handleHe_link d payload
    rw [hlink]
    exact send d.link c [] false false
  have hcounted : d.link.KeepsParser { d.link with
      diag := { d.link.diag with unhandled := d.link.diag.unhandled + 1 } } := count _ rfl
  have hunhandled : d.link.KeepsParser (handleUnhandled d).link :=
    hcounted.trans (send _ CMD_ACK [] false false)
  have hhandler : d.link.KeepsParser (dispatchHandler d cmd payload).link :=
    dispatchHandler_induction (P := fun m' => d.link.KeepsParser m'.link)
      (fun _ => handleHu d payload) (fun _ => hx)
      (fun _ => hresp _ _) (fun _ => hresp _ _) (fun _ => hresp _ _) (fun _ => hresp _ _)
      (fun _ => hresp _ _) (fun _ => hresp _ _) (fun _ => hresp _ _) (fun _ => hresp _ _)
      (fun _ => hack _) (fun _ => hack _) (fun _ => hhe)
      (fun _ => hack _) (fun _ => hack _) (fun _ => hack _) (fun _ => hack _) (fun _ => hack _)
      hunhandled
  have hcalled : m.link.KeepsParser d.link := ⟨rfl, rfl, rfl⟩
  exact hcalled.trans hhandler

end Link.KeepsParser

namespace RawParser

/-- A dispatch leaves the buffers and the machine in agreement. -/
theorem view_dispatch (r : RawParser) (cmd : Cmd) (payload : List UInt8) :
    { r with machine := nivonaDispatch r.view cmd payload }.view =
      nivonaDispatch r.view cmd payload := by
  obtain ⟨hbuf, hin, hcapture⟩ := Link.KeepsParser.dispatch r.view cmd payload
  generalize nivonaDispatch r.view cmd payload = m' at hbuf hin hcapture ⊢
  obtain ⟨core, link⟩ := m'
  obtain ⟨frame, gatt, diag⟩ := link
  obtain ⟨buf, hlen, inFrame, handshakeDone, keyPrefix⟩ := frame
  simp only [view, Frame.withBuf] at hbuf hin hcapture ⊢
  subst hbuf hin
  rw [← hcapture]

/-! ## One frame -/

section

variable {r : RawParser} {body rest : List UInt8}

/-- The decrypted body is at the start of its buffer. -/
theorem slice_plain (hplain : r.plain.toList = body ++ rest) {i k : ℕ}
    (h : i + k ≤ body.length) : slice r.plain i k = some ((body.drop i).take k) := by
  have hlen := congrArg List.length hplain
  rw [Vector.length_toList, List.length_append] at hlen
  rw [slice_eq (by omega), hplain, List.drop_append_of_le_length (by omega),
    List.take_append_of_le_length (by rw [List.length_drop]; omega)]

theorem capture_eq (hplain : r.plain.toList = body ++ rest) (encrypted : Bool) :
    ∃ buf n, r.capture r.plain encrypted body.length = some (buf, n) ∧
      buf.toList.take n =
        (body.drop (if encrypted && r.handshakeDone then KEY_PREFIX_LEN else 0)).take 32 := by
  simp only [capture]
  generalize (if encrypted && r.handshakeDone then KEY_PREFIX_LEN else 0) = skip
  by_cases hskip : skip < body.length
  · have hcap : (if 32 < body.length - skip then 32 else body.length - skip) =
        min (body.length - skip) 32 := by
      split <;> omega
    have hslice := slice_plain hplain (i := skip) (k := min (body.length - skip) 32) (by omega)
    have hbytes : ((body.drop skip).take (min (body.length - skip) 32)).length =
        min (body.length - skip) 32 := by
      rw [List.length_take, List.length_drop]
      omega
    obtain ⟨buf, hcopy, tail, hbuf⟩ := copyTo_start r.lastDecrypt
      (show ((body.drop skip).take (min (body.length - skip) 32)).length ≤ 32 by omega)
    refine ⟨buf, min (body.length - skip) 32, ?_, ?_⟩
    · rw [if_pos hskip, sub_eq (Nat.le_of_lt hskip)]
      simp only [Option.bind_eq_bind, Option.bind_some, hcap, hslice, hcopy]
    · rw [hbuf, List.take_left' hbytes, List.take_eq_take_iff, List.length_drop]
      omega
  · refine ⟨r.lastDecrypt, 0, by rw [if_neg hskip], ?_⟩
    rw [List.take_zero, List.drop_eq_nil_of_le (by omega), List.take_nil]

/-- The bytes that are summed up are command and payload. -/
theorem expectCs_eq (hplain : r.plain.toList = body ++ rest) (hpos : 1 ≤ body.length)
    {cmd : List UInt8} (hfit : cmd.length + body.length ≤ MAX_FRAME_BYTES) :
    ∃ csIn, r.expectCs cmd (body.length - 1) = some (csIn, checksum (cmd ++ body.dropLast)) := by
  have hpayload := slice_plain hplain (i := 0) (k := body.length - 1) (by omega)
  rw [List.drop_zero, ← List.dropLast_eq_take] at hpayload
  obtain ⟨csIn₁, hcopy₁, tail, htail⟩ := copyTo_start r.csIn
    (show cmd.length ≤ MAX_FRAME_BYTES by omega)
  have hdrop : body.dropLast.length = body.length - 1 := List.length_dropLast
  obtain ⟨csIn₂, hcopy₂, hlist⟩ := copyTo_eq csIn₁
    (show cmd.length + body.dropLast.length ≤ MAX_FRAME_BYTES by omega)
  have hsum : slice csIn₂ 0 (cmd.length + (body.length - 1)) = some (cmd ++ body.dropLast) := by
    rw [slice_eq (by omega), List.drop_zero, hlist, htail, List.take_left' rfl, ← hdrop,
      ← List.length_append, List.take_left' rfl]
  refine ⟨csIn₂, ?_⟩
  simp only [expectCs, Option.bind_eq_bind, hcopy₁, hpayload, hcopy₂, hsum, Option.bind_some]

theorem actualPayload_eq (hplain : r.plain.toList = body ++ rest) (hpos : 1 ≤ body.length)
    (encrypted : Bool) :
    r.actualPayload encrypted (body.length - 1) =
      some (stripPrefix r.machine.link.frame encrypted body.dropLast) := by
  have hdrop : body.dropLast.length = body.length - 1 := List.length_dropLast
  have hall := slice_plain hplain (i := 0) (k := body.length - 1) (by omega)
  rw [List.drop_zero, ← List.dropLast_eq_take] at hall
  rw [actualPayload, stripPrefix, hdrop]
  by_cases hsession : encrypted = true ∧ r.handshakeDone = true ∧ KEY_PREFIX_LEN ≤ body.length - 1
  · have hlong : 2 ≤ body.length - 1 := hsession.2.2
    have hsent := slice_plain hplain (i := 0) (k := KEY_PREFIX_LEN)
      (by rw [KEY_PREFIX_LEN]; omega)
    have hsent' : (body.drop 0).take KEY_PREFIX_LEN = body.dropLast.take KEY_PREFIX_LEN := by
      rw [List.drop_zero, List.dropLast_eq_take, List.take_take, KEY_PREFIX_LEN,
        Nat.min_eq_left hlong]
    have hcut := slice_plain hplain (i := KEY_PREFIX_LEN)
      (k := body.length - 1 - KEY_PREFIX_LEN) (by rw [KEY_PREFIX_LEN]; omega)
    have hcut' : (body.drop KEY_PREFIX_LEN).take (body.length - 1 - KEY_PREFIX_LEN) =
        body.dropLast.drop KEY_PREFIX_LEN := by
      rw [List.dropLast_eq_take, List.drop_take]
    rw [if_pos hsession, hsent, hsent', sub_eq hsession.2.2]
    simp only [Option.bind_eq_bind, Option.bind_some, hcut, hcut', hall]
    by_cases hmatch : body.dropLast.take KEY_PREFIX_LEN = r.machine.link.frame.keyPrefix.bytes
    · rw [if_pos hmatch, if_pos ⟨hsession.1, hsession.2.1, hsession.2.2, hmatch⟩]
    · rw [if_neg hmatch, if_neg fun h => hmatch h.2.2.2]
  · rw [if_neg hsession, hall, if_neg fun h => hsession ⟨h.1, h.2.1, h.2.2.1⟩]

end

/-- Neither the accumulator nor its state has changed. -/
structure SameBuffer (r r' : RawParser) : Prop where
  buf : r'.buf = r.buf
  len : r'.len = r.len
  inFrame : r'.inFrame = r.inFrame

end RawParser

/-- What the parser does with an opened frame. -/
def Machine.parseOpened (m : Machine) (o : OpenedFrame) : Machine :=
  let m := m.onDiag fun d =>
    { d with
      lastDecrypt := captureDecrypt m.link.frame o
      lastRecvCs := o.recvCs
      lastExpectCs := o.expectCs }
  if o.recvCs ≠ o.expectCs then
    m.onDiag fun d => { d with csMismatch := d.csMismatch + 1 }
  else
    let m := m.onDiag fun d => { d with frameParsed := d.frameParsed + 1 }
    nivonaDispatch m o.cmd (stripPrefix m.link.frame o.encrypted o.payload)

/-- The machine with one more call of the parser counted. -/
def Machine.parseCalled (m : Machine) : Machine :=
  m.onDiag fun d => { d with tryParseCalled := d.tryParseCalled + 1 }

theorem tryParse_eq (m : Machine) :
    tryParse m = match openFrame m.link.frame.handshakeDone m.link.frame.buf with
      | .error .unknownCmd =>
          m.parseCalled.onDiag fun d => { d with unknownCmd := d.unknownCmd + 1 }
      | .error _ => m.parseCalled
      | .ok o => m.parseCalled.parseOpened o := rfl

namespace RawParser

theorem load_last {r : RawParser} {body rest : List UInt8} (hplain : r.plain.toList = body ++ rest)
    (hpos : 1 ≤ body.length) : load r.plain (body.length - 1) = some (body.getLastD 0) := by
  rw [load, ← Vector.getElem?_toList, hplain, List.getElem?_append_left (by omega),
    List.getLastD_eq_getLast?, List.getLast?_eq_getElem?, List.getElem?_eq_getElem (by omega)]
  rfl

theorem parsePlain_eq {r : RawParser} {rest : List UInt8} (o : OpenedFrame)
    (hplain : r.plain.toList = o.plain ++ rest) (hpos : 1 ≤ o.plain.length)
    (hfit : o.cmd.length + o.plain.length ≤ MAX_FRAME_BYTES) :
    ∃ r', r.parsePlain o.cmd o.encrypted o.plain.length = some r' ∧ r.SameBuffer r' ∧
      r'.view = r.view.parseOpened o := by
  obtain ⟨lastDecrypt, lastDecryptLen, hcapture, hcaptured⟩ := capture_eq hplain o.encrypted
  obtain ⟨csIn, hexpect⟩ := expectCs_eq hplain hpos hfit
  have hrecv := load_last hplain hpos
  have hlog : slice r.plain 0 (max 4 (min 7 (o.plain.length - 1))) = some _ :=
    slice_eq (by rw [MAX_FRAME_BYTES] at hfit ⊢; omega)
  let r₁ := { r with
    lastDecrypt := lastDecrypt, lastDecryptLen := lastDecryptLen, csIn := csIn }.onDiag fun d =>
      { d with lastRecvCs := o.recvCs, lastExpectCs := o.expectCs }
  have hview : r₁.view = r.view.onDiag fun d =>
      { d with
        lastDecrypt := captureDecrypt r.view.link.frame o
        lastRecvCs := o.recvCs
        lastExpectCs := o.expectCs } := by
    simp only [view, r₁, onDiag, Machine.onDiag, captureDecrypt, hcaptured]
    rfl
  have hpayload : r₁.actualPayload o.encrypted (o.plain.length - 1) =
      some (stripPrefix r.machine.link.frame o.encrypted o.payload) :=
    actualPayload_eq (r := r₁) hplain hpos o.encrypted
  have hparse : r.parsePlain o.cmd o.encrypted o.plain.length =
      if o.recvCs ≠ o.expectCs then
        some (r₁.onDiag fun d => { d with csMismatch := d.csMismatch + 1 })
      else
        let r₂ := r₁.onDiag fun d => { d with frameParsed := d.frameParsed + 1 }
        let payload := stripPrefix r.machine.link.frame o.encrypted o.payload
        some { r₂ with machine := nivonaDispatch r₂.view o.cmd payload } := by
    simp only [parsePlain, Option.bind_eq_bind, sub_eq hpos, Option.bind_some, hrecv, hcapture,
      hexpect]
    change (if o.recvCs ≠ o.expectCs then (slice r.plain 0 _).bind _ else
      (r₁.actualPayload o.encrypted (o.plain.length - 1)).bind _) = _
    rw [hlog, hpayload]
    rfl
  rw [hparse, Machine.parseOpened]
  dsimp only
  by_cases hcs : o.recvCs ≠ o.expectCs
  · rw [if_pos hcs, if_pos hcs]
    refine ⟨_, rfl, ⟨rfl, rfl, rfl⟩, ?_⟩
    rw [← hview]
    rfl
  · rw [if_neg hcs, if_neg hcs]
    refine ⟨_, rfl, ⟨rfl, rfl, rfl⟩, ?_⟩
    rw [view_dispatch, ← hview]
    rfl

/-- The accumulated bytes. -/
def received (r : RawParser) : List UInt8 := r.buf.toList.take r.len

theorem length_received {r : RawParser} (hlen : r.len ≤ MAX_FRAME_BYTES) :
    r.received.length = r.len := by
  rw [received, List.length_take, Vector.length_toList, Nat.min_eq_left hlen]

/-- Reads below the accumulated length read accumulated bytes. -/
theorem load_received {r : RawParser} {i : ℕ} (hlen : r.len ≤ MAX_FRAME_BYTES) (hi : i < r.len) :
    load r.buf i = some (r.received.getD i 0) := by
  have hi' : i < r.received.length := by rwa [length_received hlen]
  rw [load, ← Vector.getElem?_toList, ← List.getElem?_take_of_lt hi, ← received,
    List.getD_eq_getElem?_getD, List.getElem?_eq_getElem hi']
  rfl

theorem slice_received {r : RawParser} {i k : ℕ} (hlen : r.len ≤ MAX_FRAME_BYTES)
    (hi : i + k ≤ r.len) : slice r.buf i k = some ((r.received.drop i).take k) := by
  rw [slice_eq (hi.trans hlen), received, drop_take_of_prefix _ hi]

theorem parseBody_eq {r : RawParser} {cmdLen : ℕ} (encrypted : Bool)
    (hlen : r.len ≤ MAX_FRAME_BYTES) (hfour : 4 ≤ r.len) (hcmd : 1 ≤ cmdLen ∧ cmdLen ≤ 2) :
    ∃ r', r.parseBody cmdLen encrypted = some r' ∧ r.SameBuffer r' ∧ r'.view =
      if r.len - 1 ≤ 1 + cmdLen then r.view
      else
        let data := (r.received.drop (1 + cmdLen)).take (r.len - 1 - (1 + cmdLen))
        r.view.parseOpened
          { cmd := (r.received.drop 1).take cmdLen
            encrypted := encrypted
            plain := if encrypted then nivonaRc4WithMasterKey data else data } := by
  have hbytes := slice_received (i := 1) (k := cmdLen) hlen (by omega)
  have hcmdLen : ((r.received.drop 1).take cmdLen).length = cmdLen := by
    rw [List.length_take, List.length_drop, length_received hlen]
    omega
  obtain ⟨_, hname, -⟩ := copyTo_start (Vector.replicate 3 (0 : UInt8))
    (show ((r.received.drop 1).take cmdLen).length ≤ 3 by omega)
  simp only [parseBody, Option.bind_eq_bind, hbytes, hname, Option.bind_some,
    sub_eq (show 1 ≤ r.len by omega)]
  by_cases hshort : r.len - 1 ≤ 1 + cmdLen
  · rw [if_pos hshort, if_pos hshort]
    exact ⟨r, rfl, ⟨rfl, rfl, rfl⟩, rfl⟩
  · rw [if_neg hshort, if_neg hshort, sub_eq (by omega), Option.bind_some,
      slice_received hlen (by omega), Option.bind_some]
    generalize hdata : (r.received.drop (1 + cmdLen)).take (r.len - 1 - (1 + cmdLen)) = data
    have hdataLen : data.length = r.len - 1 - (1 + cmdLen) := by
      rw [← hdata, List.length_take, List.length_drop, length_received hlen]
      omega
    have hplainLen : (if encrypted then nivonaRc4WithMasterKey data else data).length =
        r.len - 1 - (1 + cmdLen) := by
      cases encrypted <;> simp [hdataLen]
    obtain ⟨plain, hcopy, tail, hplain⟩ := copyTo_start r.plain
      (show (if encrypted then nivonaRc4WithMasterKey data else data).length ≤ MAX_FRAME_BYTES by
        omega)
    rw [hcopy, Option.bind_some]
    obtain ⟨r', hparse, hsame, hview⟩ := parsePlain_eq (r := { r with plain := plain })
      { cmd := (r.received.drop 1).take cmdLen
        encrypted := encrypted
        plain := if encrypted then nivonaRc4WithMasterKey data else data }
      hplain (by dsimp only; omega) (by dsimp only; omega)
    rw [← hplainLen]
    exact ⟨r', hparse, ⟨hsame.buf, hsame.len, hsame.inFrame⟩, hview⟩

/-- A command is known by one byte or by two. -/
theorem cmdInfo_length {handshakeDone : Bool} {body : List UInt8} {cmdLen : ℕ} {encrypted : Bool}
    (h : cmdInfo handshakeDone body = some (cmdLen, encrypted)) : 1 ≤ cmdLen ∧ cmdLen ≤ 2 := by
  rw [cmdInfo.eq_def] at h
  split at h
  · cases h
  · split at h
    · obtain ⟨rfl, -⟩ := by simpa using h
      omega
    · split at h
      · obtain ⟨rfl, -⟩ := by simpa using h
        omega
      · cases h

theorem parseReceived_view {r : RawParser} (hlen : r.len ≤ MAX_FRAME_BYTES) :
    ∃ r', r.parseReceived = some r' ∧ r.SameBuffer r' ∧ r'.view =
      match openFrame r.handshakeDone r.received with
      | .error .unknownCmd => r.view.onDiag fun d => { d with unknownCmd := d.unknownCmd + 1 }
      | .error _ => r.view
      | .ok o => r.view.parseOpened o := by
  have hself : r.SameBuffer r := ⟨rfl, rfl, rfl⟩
  rw [parseReceived, openFrame, length_received hlen]
  by_cases hfour : r.len < 4
  · rw [if_pos hfour, if_pos hfour]
    exact ⟨r, rfl, hself, rfl⟩
  have hfirst : load r.buf 0 = some (r.received.headD 0) := by
    rw [load_received hlen (by omega)]
    cases r.received <;> rfl
  have hlast : load r.buf (r.len - 1) = some (r.received.getLastD 0) := by
    rw [load_received hlen (by omega), List.getLastD_eq_getLast?, List.getLast?_eq_getElem?,
      length_received hlen, List.getD_eq_getElem?_getD]
  rw [if_neg hfour, if_neg hfour]
  simp only [Option.bind_eq_bind, hfirst, sub_eq (show 1 ≤ r.len by omega), hlast,
    Option.bind_some]
  by_cases hmarkers : r.received.headD 0 ≠ FRAME_START ∨ r.received.getLastD 0 ≠ FRAME_END
  · rw [if_pos hmarkers, if_pos hmarkers]
    exact ⟨r, rfl, hself, rfl⟩
  rw [if_neg hmarkers, if_neg hmarkers, sub_eq (by omega), Option.bind_some,
    slice_received hlen (by omega), Option.bind_some]
  cases hinfo : cmdInfo r.handshakeDone ((r.received.drop 1).take (r.len - 2)) with
  | none =>
      dsimp only
      rw [slice_received hlen (by omega), Option.bind_some]
      exact ⟨_, rfl, ⟨rfl, rfl, rfl⟩, rfl⟩
  | some info =>
      obtain ⟨cmdLen, encrypted⟩ := info
      obtain ⟨r', hparse, hsame, hview⟩ := parseBody_eq encrypted hlen
        (Nat.le_of_not_lt hfour) (cmdInfo_length hinfo)
      refine ⟨r', hparse, hsame, hview.trans ?_⟩
      dsimp only
      by_cases hshort : r.len - 1 ≤ 1 + cmdLen
      · rw [if_pos hshort, if_pos hshort]
      · rw [if_neg hshort, if_neg hshort]

theorem logEnds_eq {r : RawParser} (hlen : r.len ≤ MAX_FRAME_BYTES) : r.logEnds = some () := by
  rw [logEnds]
  by_cases hpos : 0 < r.len
  · simp only [hpos, if_true, Option.bind_eq_bind, load_received hlen hpos,
      load_received hlen (show r.len - 1 < r.len by omega),
      sub_eq (show 1 ≤ r.len by omega), Option.bind_some]
  · rw [if_neg hpos]

/-- Parsing what has been accumulated stays inside the buffers, and does what the parser
of the machine does. -/
theorem tryParse_view {r : RawParser} (hlen : r.len ≤ MAX_FRAME_BYTES) :
    ∃ r', r.tryParse = some r' ∧ r.SameBuffer r' ∧ r'.view = Nivona.tryParse r.view := by
  let r₁ := r.onDiag fun d => { d with tryParseCalled := d.tryParseCalled + 1 }
  obtain ⟨r', hparse, hsame, hview⟩ := parseReceived_view (r := r₁) hlen
  have hcall : r.tryParse = r₁.logEnds.bind fun _ => r₁.parseReceived := rfl
  rw [logEnds_eq (r := r₁) hlen, Option.bind_some] at hcall
  refine ⟨r', hcall.trans hparse, ⟨hsame.buf, hsame.len, hsame.inFrame⟩, hview.trans ?_⟩
  rw [tryParse_eq]
  rfl

/-! ## The accumulator -/

/-- What holds of the accumulator between bytes. -/
structure Bounded (r : RawParser) : Prop where
  inFrame : r.inFrame = true ↔ 1 ≤ r.len
  len : r.len ≤ MAX_FRAME_BYTES
  start : r.inFrame = true → load r.buf 0 = some FRAME_START
  size : 0 < expectedSize r.received → r.len < expectedSize r.received

/-- Between frames nothing has been accumulated. -/
theorem bounded_idle {r : RawParser} (hin : r.inFrame = false) (hlen : r.len = 0) : r.Bounded where
  inFrame := by simp [hin, hlen]
  len := hlen ▸ Nat.zero_le _
  start := by simp [hin]
  size := by simp [received, hlen, expectedSize]

/-- The expected size is that of the accumulated bytes. -/
theorem expected_eq {r : RawParser} (hlen : r.len ≤ MAX_FRAME_BYTES) :
    r.expected = some (expectedSize r.received) := by
  rw [expected, expectedSize, length_received hlen]
  by_cases hthree : 3 ≤ r.len
  · simp only [hthree, load_received hlen (show 1 < r.len by omega),
      load_received hlen (show 2 < r.len by omega), Option.bind_eq_bind, Option.bind_some,
      if_true, true_and]
    split <;> rfl
  · rw [if_neg hthree, if_neg (fun h => hthree h.1)]

theorem expectedSize_append {p : List UInt8} (b : UInt8) (h : 3 ≤ p.length) :
    expectedSize (p ++ [b]) = expectedSize p := by
  simp only [expectedSize, List.length_append, List.length_singleton,
    List.getD_eq_getElem?_getD]
  rw [List.getElem?_append_left (by omega), List.getElem?_append_left (by omega)]
  simp only [h, show 3 ≤ p.length + 1 by omega, true_and]

/-- A frame that its last byte does not complete is shorter than its command asks for. -/
theorem lt_expectedSize {p : List UInt8} {b : UInt8}
    (hsize : 0 < expectedSize p → p.length < expectedSize p)
    (hinc : frameComplete (p ++ [b]) b = false) (hpos : 0 < expectedSize (p ++ [b])) :
    p.length + 1 < expectedSize (p ++ [b]) := by
  rw [frameComplete, if_pos hpos, beq_eq_false_iff_ne, List.length_append,
    List.length_singleton] at hinc
  by_cases hthree : 3 ≤ p.length
  · rw [expectedSize_append b hthree] at hpos hinc ⊢
    have hlt := hsize hpos
    omega
  · have hbig : 7 ≤ expectedSize (p ++ [b]) := by
      rw [expectedSize] at hpos ⊢
      split at hpos
      · rename_i hcmd
        rw [if_pos hcmd]
        exact seven_le_expectedRequestSize hpos
      · exact absurd hpos (by omega)
    omega

theorem withBuf_congr (f : Frame) (inFrame : Bool) {buf buf' : List UInt8}
    (h : buf.length ≤ MAX_FRAME_BYTES) (e : buf = buf') :
    f.withBuf inFrame buf h = f.withBuf inFrame buf' (e ▸ h) := by
  subst e
  rfl

/-- After one byte the parser is idle, or one byte more has been accumulated. -/
def Progress (r r' : RawParser) : Prop :=
  r.inFrame = true → r'.inFrame = false ∨ r'.len = r.len + 1

/-- A byte stays inside the buffers, makes progress and does what it does to the
machine. -/
def Follows (r : RawParser) (b : UInt8) : Prop :=
  ∃ r', r.feedByte b = some r' ∧ r'.Bounded ∧ r.Progress r' ∧
    r'.view = Nivona.feedByte r.view b

/-- Between frames a byte is a start marker or noise. -/
theorem follows_of_idle {r : RawParser} (h : r.Bounded) (hin : r.inFrame = false) (b : UInt8) :
    r.Follows b := by
  have hidle : r.view.link.frame.inFrame = false := hin
  rw [Follows, feedByte, if_pos hin]
  by_cases hb : b = FRAME_START
  · subst hb
    let r' : RawParser :=
      { r with buf := r.buf.set 0 FRAME_START, len := 1, inFrame := true }
    have htake : r'.received = [FRAME_START] := by
      rw [received, Vector.toList_set, take_set_last _ (by rw [Vector.length_toList]; decide)]
      rfl
    refine ⟨r', by rw [if_pos rfl, store_eq (by decide)]; rfl, ?_, by simp [Progress, hin], ?_⟩
    · have hfit : 1 ≤ MAX_FRAME_BYTES := by decide
      exact ⟨by simp [r'], hfit, fun _ => load_set_self _ hfit _,
        by rw [htake]; simp [expectedSize]⟩
    · rw [feedByte_start hidle]
      exact congrArg r.view.setFrame (withBuf_congr _ _ _ htake)
  · rw [if_neg hb, feedByte_noise hidle hb]
    exact ⟨r, rfl, h, by simp [Progress, hin], rfl⟩

/-- A byte that finds the buffer full drops the frame. -/
theorem follows_of_full {r : RawParser} (h : r.Bounded) (hin : r.inFrame = true)
    (hfull : MAX_FRAME_BYTES ≤ r.len) (b : UInt8) : r.Follows b := by
  let r' : RawParser := { r with len := 0, inFrame := false }
  have hstep : r.feedByte b = some r' := by
    rw [feedByte, if_neg (by simp [hin]), if_pos hfull]
  have hlen : r.view.link.frame.buf.length = r.len := length_received h.len
  have hinView : r.view.link.frame.inFrame = true := hin
  refine ⟨r', hstep, bounded_idle rfl rfl, fun _ => .inl rfl, ?_⟩
  rw [Nivona.feedByte, if_neg (by simp [hinView]), dif_neg (by omega)]
  rfl

/-- A byte that finds room is accumulated, and may end the frame. -/
theorem follows_of_room {r : RawParser} (h : r.Bounded) (hin : r.inFrame = true)
    (hroom : r.len < MAX_FRAME_BYTES) (b : UInt8) : r.Follows b := by
  have hinView : r.view.link.frame.inFrame = true := hin
  have hlenView : r.view.link.frame.buf.length = r.len := length_received h.len
  let r₁ : RawParser := { r with buf := r.buf.set r.len b, len := r.len + 1 }
  have hlen₁ : r₁.len ≤ MAX_FRAME_BYTES := hroom
  have htake : r₁.received = r.received ++ [b] := by
    rw [received, Vector.toList_set, take_set_last _ (by rwa [Vector.length_toList])]
    rfl
  have hview : r₁.view = r.view.receiving (r.received ++ [b])
      (length_push_le (hlenView.trans_lt hroom)) :=
    congrArg r.view.setFrame ((withBuf_congr _ _ _ htake).trans (by rw [hin]; rfl))
  have hsize : 0 < expectedSize r.received → r.received.length < expectedSize r.received := by
    rw [length_received h.len]
    exact h.size
  have hfeed : r.feedByte b =
      if frameComplete r₁.received b = true then
        r₁.tryParse.bind fun r => some { r with len := 0, inFrame := false }
      else some r₁ := by
    rw [feedByte, if_neg (by simp [hin]), if_neg (Nat.not_le.mpr hroom), store_eq hroom]
    change r₁.expected.bind _ = _
    rw [expected_eq hlen₁, Option.bind_some, frameComplete, length_received hlen₁]
    split <;> simp only [beq_iff_eq, Option.bind_eq_bind] <;> rfl
  rw [Follows, hfeed]
  cases hc : frameComplete r₁.received b with
  | false =>
      refine ⟨r₁, rfl, ⟨by simp [r₁, hin], hlen₁, fun _ => ?_, fun hpos => ?_⟩,
        fun _ => .inr rfl, ?_⟩
      · have hpos := h.inFrame.mp hin
        exact (load_set_ne _ hroom _ (by omega)).trans (h.start hin)
      · have hlt := lt_expectedSize hsize (htake ▸ hc) (htake ▸ hpos)
        rw [htake]
        rwa [length_received h.len] at hlt
      · have hcollect := feedByte_incomplete r.view r.view.link.frame.length_buf
          (hlenView.trans_lt hroom) (htake ▸ hc)
        rw [← receiving_self hinView] at hcollect
        exact hview.trans hcollect.symm
  | true =>
      obtain ⟨r₂, hparse, hsame, hparsed⟩ := tryParse_view hlen₁
      let r' : RawParser := { r₂ with len := 0, inFrame := false }
      rw [if_pos rfl, hparse, Option.bind_some]
      refine ⟨r', rfl, bounded_idle rfl rfl, fun _ => .inl rfl, ?_⟩
      rw [feedByte_ends hinView (hlenView.trans_lt hroom) (htake ▸ hc)]
      have hclosed := congrArg closeFrame (hparsed.trans (congrArg Nivona.tryParse hview))
      exact hclosed

/-- So every byte stays inside the buffers. -/
theorem feedByte_view {r : RawParser} (h : r.Bounded) (b : UInt8) : r.Follows b := by
  cases hin : r.inFrame with
  | false => exact follows_of_idle h hin b
  | true =>
      rcases Nat.lt_or_ge r.len MAX_FRAME_BYTES with hroom | hfull
      · exact follows_of_room h hin hroom b
      · exact follows_of_full h hin hfull b

/-- Bytes never leave the buffers, and do what they do to the machine. -/
theorem feed_view {r : RawParser} (h : r.Bounded) (data : List UInt8) :
    ∃ r', r.feed data = some r' ∧ r'.Bounded ∧ r'.view = nivonaFrameFeed r.view data := by
  induction data generalizing r with
  | nil => exact ⟨r, rfl, h, rfl⟩
  | cons b bs ih =>
      obtain ⟨r₁, hbyte, hbounded, -, hview⟩ := feedByte_view h b
      obtain ⟨r', hfeed, hbounded', hview'⟩ := ih hbounded
      refine ⟨r', ?_, hbounded', ?_⟩
      · rw [feed, List.foldlM_cons, hbyte]
        exact hfeed
      · rw [hview', hview, nivonaFrameFeed_cons]

theorem call_view {r : RawParser} (h : r.Bounded) (c : ParserCall) :
    ∃ r', r.call c = some r' ∧ r'.Bounded ∧ r'.view = r.view.parserCall c := by
  cases c with
  | feed data => exact feed_view h data
  | reset => exact ⟨r.reset, rfl, bounded_idle rfl rfl, rfl⟩
  | elsewhere m => exact ⟨_, rfl, ⟨h.inFrame, h.len, h.start, h.size⟩, rfl⟩

/-- The same of any calls in any order. -/
theorem calls_view {r : RawParser} (h : r.Bounded) (calls : List ParserCall) :
    ∃ r', calls.foldlM call r = some r' ∧ r'.Bounded ∧
      r'.view = calls.foldl Machine.parserCall r.view := by
  induction calls generalizing r with
  | nil => exact ⟨r, rfl, h, rfl⟩
  | cons c calls ih =>
      obtain ⟨r₁, hcall, hbounded, hview⟩ := call_view h c
      obtain ⟨r', hcalls, hbounded', hview'⟩ := ih hbounded
      refine ⟨r', ?_, hbounded', ?_⟩
      · rw [List.foldlM_cons, hcall]
        exact hcalls
      · rw [hview', hview, List.foldl_cons]

/-- Inside a frame every byte is accumulated or ends it, so that it ends before the
buffer does. -/
theorem idle_after {r : RawParser} (h : r.Bounded) {data : List UInt8}
    (hdata : MAX_FRAME_BYTES + 1 ≤ r.len + data.length) :
    ∃ k r', k ≤ MAX_FRAME_BYTES + 1 - r.len ∧ r.feed (data.take k) = some r' ∧
      r'.inFrame = false := by
  induction data generalizing r with
  | nil =>
      have hlen := h.len
      rw [List.length_nil] at hdata
      omega
  | cons b bs ih =>
      cases hin : r.inFrame with
      | false => exact ⟨0, r, Nat.zero_le _, rfl, hin⟩
      | true =>
          obtain ⟨r₁, hbyte, hbounded, hprogress, -⟩ := feedByte_view h b
          rw [List.length_cons] at hdata
          have hlen := h.len
          have hfirst : r.feed ((b :: bs).take 1) = some r₁ := by
            simp [feed, hbyte]
          rcases hprogress hin with hidle | hlen₁
          · exact ⟨1, r₁, by omega, hfirst, hidle⟩
          · obtain ⟨k, r', hk, hfeed, hidle⟩ := ih hbounded (by omega)
            refine ⟨k + 1, r', by omega, ?_, hidle⟩
            rw [List.take_succ_cons, feed, List.foldlM_cons, hbyte]
            exact hfeed

end RawParser

/-- From power-on, no sequence of calls makes the parser leave its buffers or subtract
below zero; it is in a frame exactly while it holds bytes, of which the first is the start
marker, and fewer than a recognised command asks for; and 512 more bytes leave every
frame. -/
theorem parser_safe (m : Machine) (calls : List ParserCall) :
    ∃ r, calls.foldlM RawParser.call (RawParser.boot m) = some r ∧
      r.view = calls.foldl Machine.parserCall (RawParser.boot m).view ∧ r.Bounded ∧
      (r.inFrame = true → ∀ data : List UInt8, data.length = MAX_FRAME_BYTES →
        ∃ k r', k ≤ MAX_FRAME_BYTES ∧ r.feed (data.take k) = some r' ∧ r'.inFrame = false) := by
  obtain ⟨r, hcalls, hbounded, hview⟩ :=
    RawParser.calls_view (RawParser.bounded_idle (r := RawParser.boot m) rfl rfl) calls
  refine ⟨r, hcalls, hview, hbounded, fun hin data hdata => ?_⟩
  have hpos := hbounded.inFrame.mp hin
  obtain ⟨k, r', hk, hfeed, hidle⟩ := RawParser.idle_after hbounded
    (show MAX_FRAME_BYTES + 1 ≤ r.len + data.length by omega)
  exact ⟨k, r', by omega, hfeed, hidle⟩

end Nivona
