import NivonaEmulator.Dispatch

/-!
# Receiving frames

The byte-at-a-time accumulator and the frame parser.  The guard that keeps
`try_parse` from being entered a second time is left out: no handler feeds
bytes, so it never fires.
-/

namespace Nivona

/-! ## Parsing a complete frame -/

/-- Length of the command and whether the body is encrypted. -/
def cmdInfo (handshakeDone : Bool) (buf : List UInt8) : Option (ℕ × Bool) :=
  match buf with
  | [] => none
  | b :: rest =>
      if handshakeDone = false ∧ (b = 0x41 ∨ b = 0x4E) then some (1, false)
      else if 1 ≤ rest.length ∧ b = 0x48 then some (2, true)
      else none

/-- A frame taken apart; `plain` is the body with its checksum. -/
structure OpenedFrame where
  cmd : Cmd
  encrypted : Bool
  plain : List UInt8
  deriving DecidableEq, Repr

def OpenedFrame.recvCs (o : OpenedFrame) : UInt8 := o.plain.getLastD 0

def OpenedFrame.payload (o : OpenedFrame) : List UInt8 := o.plain.dropLast

def OpenedFrame.expectCs (o : OpenedFrame) : UInt8 := checksum (o.cmd ++ o.payload)

inductive OpenError
  | tooShort | badMarkers | unknownCmd | noBody
  deriving DecidableEq, Repr

/-- Markers, command and decrypted body of the received bytes. -/
def openFrame (handshakeDone : Bool) (p : List UInt8) : Except OpenError OpenedFrame :=
  if p.length < 4 then .error .tooShort
  else if p.headD 0 ≠ FRAME_START ∨ p.getLastD 0 ≠ FRAME_END then .error .badMarkers
  else match cmdInfo handshakeDone ((p.drop 1).take (p.length - 2)) with
    | none => .error .unknownCmd
    | some (cmdLen, encrypted) =>
        let dataStart := 1 + cmdLen
        let dataEnd := p.length - 1
        if dataEnd ≤ dataStart then .error .noBody
        else
          let data := (p.drop dataStart).take (dataEnd - dataStart)
          .ok { cmd := (p.drop 1).take cmdLen
                encrypted := encrypted
                plain := if encrypted then nivonaRc4WithMasterKey data else data }

/-- The prefix is cut off an encrypted frame of a session when it matches. -/
def stripPrefix (f : Frame) (encrypted : Bool) (payload : List UInt8) : List UInt8 :=
  if encrypted ∧ f.handshakeDone ∧ KEY_PREFIX_LEN ≤ payload.length ∧
      payload.take KEY_PREFIX_LEN = f.keyPrefix.bytes then
    payload.drop KEY_PREFIX_LEN
  else payload

/-- The capture of the last decrypted body, without the session-key prefix. -/
def captureDecrypt (f : Frame) (o : OpenedFrame) : List UInt8 :=
  let skip := if o.encrypted && f.handshakeDone then KEY_PREFIX_LEN else 0
  (o.plain.drop skip).take 32

/-- Update the diagnostic counters of a machine. -/
def Machine.onDiag (m : Machine) (f : Diag → Diag) : Machine :=
  { m with link := { m.link with diag := f m.link.diag } }

def tryParse (m : Machine) : Machine :=
  let m := m.onDiag fun d => { d with tryParseCalled := d.tryParseCalled + 1 }
  match openFrame m.link.frame.handshakeDone m.link.frame.buf with
  | .error .unknownCmd => m.onDiag fun d => { d with unknownCmd := d.unknownCmd + 1 }
  | .error _ => m
  | .ok o =>
      let m := m.onDiag fun d =>
        { d with
          lastDecrypt := captureDecrypt m.link.frame o
          lastRecvCs := o.recvCs
          lastExpectCs := o.expectCs }
      if o.recvCs ≠ o.expectCs then
        m.onDiag fun d => { d with csMismatch := d.csMismatch + 1 }
      else
        let m := m.onDiag fun d => { d with frameParsed := d.frameParsed + 1 }
        nivonaDispatch m o.cmd (stripPrefix m.link.frame o.encrypted o.payload)

/-! ## Accumulating bytes -/

/-- Size of a request frame by its second command byte; 0 for variable length. -/
def expectedRequestSize (cmd2 : UInt8) : ℕ :=
  if cmd2 = 0x55 then 11       -- HU: seed(4) + verifier(2), no prefix
  else if cmd2 = 0x56 then 7   -- HV
  else if cmd2 = 0x58 then 7   -- HX
  else if cmd2 = 0x49 then 7   -- HI
  else if cmd2 = 0x52 then 9   -- HR: id(2)
  else if cmd2 = 0x41 then 9   -- HA: id(2)
  else if cmd2 = 0x57 then 13  -- HW: id(2) + value(4)
  else if cmd2 = 0x44 then 9   -- HD: id(2)
  else if cmd2 = 0x59 then 11  -- HY
  else if cmd2 = 0x5A then 11  -- HZ
  else if cmd2 = 0x45 then 25  -- HE
  else if cmd2 = 0x43 then 9   -- HC: id(2)
  else if cmd2 = 0x42 then 0   -- HB
  else if cmd2 = 0x4A then 73  -- HJ
  else 0

/-- Expected size of the frame that starts with the given bytes. -/
def expectedSize (buf : List UInt8) : ℕ :=
  if 3 ≤ buf.length ∧ buf.getD 1 0 = 0x48 then expectedRequestSize (buf.getD 2 0) else 0

/-- Is the frame finished by the last of these bytes? -/
def frameComplete (buf : List UInt8) (b : UInt8) : Bool :=
  if 0 < expectedSize buf then buf.length == expectedSize buf else b == FRAME_END

/-- Replace the contents of the parser. -/
def Frame.withBuf (f : Frame) (inFrame : Bool) (buf : List UInt8)
    (h : buf.length ≤ MAX_FRAME_BYTES) : Frame :=
  { f with buf := buf, length_buf := h, inFrame := inFrame }

/-- The parser is between frames. -/
def Frame.idle (f : Frame) : Frame := f.withBuf false [] (Nat.zero_le _)

def Machine.setFrame (m : Machine) (f : Frame) : Machine :=
  { m with link := { m.link with frame := f } }

/-- Forget the received bytes. -/
def closeFrame (m : Machine) : Machine := m.setFrame m.link.frame.idle

/-- Start a frame. -/
def beginFrame (m : Machine) : Machine :=
  m.setFrame (m.link.frame.withBuf true [FRAME_START] (by decide))

/-- Store a byte when the buffer has room for it. -/
def pushByte (m : Machine) (b : UInt8) (h : m.link.frame.buf.length < MAX_FRAME_BYTES) :
    Machine :=
  m.setFrame (m.link.frame.withBuf m.link.frame.inFrame (m.link.frame.buf ++ [b])
    (by rw [List.length_append, List.length_singleton]; exact h))

/-- One byte of `nivona_frame_feed`. -/
def feedByte (m : Machine) (b : UInt8) : Machine :=
  if m.link.frame.inFrame = false then
    if b = FRAME_START then beginFrame m else m
  else if h : m.link.frame.buf.length < MAX_FRAME_BYTES then
    let m := pushByte m b h
    if frameComplete m.link.frame.buf b then closeFrame (tryParse m) else m
  else closeFrame m

def nivonaFrameFeed (m : Machine) (data : List UInt8) : Machine :=
  data.foldl feedByte m

/-- An AD03 write: at most 256 bytes are copied and fed to the parser. -/
def onAd03Write (m : Machine) (data : List UInt8) : Machine :=
  let buf := data.take 256
  let m := m.onDiag fun d =>
    { d with
      ad03Writes := d.ad03Writes + 1
      lastAd03Len := UInt32.ofNat buf.length
      lastAd03 := buf.take 64 }
  nivonaFrameFeed m buf

end Nivona
