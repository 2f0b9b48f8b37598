import NivonaEmulator.Crypto
import NivonaEmulator.Lib.Chunks

/-!
# The radio link

Parser and handshake state, the GATT connection, the diagnostic counters, and
the sending half of the frame codec.  What the BLE stack and the random source
answer to the coming calls is part of the state.
-/

namespace Nivona

def FRAME_START : UInt8 := 0x53
def FRAME_END : UInt8 := 0x45
def BLE_MTU : ℕ := 20
def MAX_FRAME_BYTES : ℕ := 512
def KEY_PREFIX_LEN : ℕ := 2
def BLE_HS_CONN_HANDLE_NONE : UInt16 := 0xFFFF

/-- Bytes of a command string. -/
abbrev Cmd := List UInt8

def CMD_ACK : Cmd := [0x41]
def CMD_NACK : Cmd := [0x4E]
def CMD_HANDSHAKE : Cmd := [0x48, 0x55]
def CMD_READ_ALPHA : Cmd := [0x48, 0x41]
def CMD_WRITE_ALPHA : Cmd := [0x48, 0x42]
def CMD_READ_RECIPE : Cmd := [0x48, 0x43]
def CMD_RESET_DEFAULT : Cmd := [0x48, 0x44]
def CMD_START_PROCESS : Cmd := [0x48, 0x45]
def CMD_READ_FEATURES : Cmd := [0x48, 0x49]
def CMD_WRITE_RECIPE : Cmd := [0x48, 0x4A]
def CMD_READ_NUMERICAL : Cmd := [0x48, 0x52]
def CMD_READ_VERSION : Cmd := [0x48, 0x56]
def CMD_WRITE_NUMERICAL : Cmd := [0x48, 0x57]
def CMD_READ_STATUS : Cmd := [0x48, 0x58]
def CMD_CONFIRM_PROMPT : Cmd := [0x48, 0x59]
def CMD_CANCEL_PROCESS : Cmd := [0x48, 0x5A]
def CMD_HL : Cmd := [0x48, 0x4C]
def CMD_HN : Cmd := [0x48, 0x4E]
def CMD_HS : Cmd := [0x48, 0x53]
def CMD_Hp : Cmd := [0x48, 0x70]

/-! ## State -/

/-- The two bytes of a session-key prefix. -/
structure KeyPrefix where
  b0 : UInt8
  b1 : UInt8
  deriving DecidableEq, Repr

def KeyPrefix.bytes (kp : KeyPrefix) : List UInt8 := [kp.b0, kp.b1]

@[simp] theorem KeyPrefix.length_bytes (kp : KeyPrefix) :
    kp.bytes.length = KEY_PREFIX_LEN := rfl

/-- Parser and handshake state; `buf` is the filled part of the buffer. -/
structure Frame where
  buf : List UInt8
  length_buf : buf.length ≤ MAX_FRAME_BYTES
  inFrame : Bool
  handshakeDone : Bool
  keyPrefix : KeyPrefix

structure Gatt where
  connHandle : UInt16
  notifyHandle : UInt16
  notifySubscribed : Bool
  deriving DecidableEq, Repr

/-- The diagnostic counters and captures. -/
structure Diag where
  tryParseCalled : UInt32 := 0
  csMismatch : UInt32 := 0
  unknownCmd : UInt32 := 0
  lastDecrypt : List UInt8 := []
  lastRecvCs : UInt8 := 0
  lastExpectCs : UInt8 := 0
  frameParsed : UInt32 := 0
  huRx : UInt32 := 0
  huVerOk : UInt32 := 0
  huVerBad : UInt32 := 0
  huResp : UInt32 := 0
  hxResp : UInt32 := 0
  unhandled : UInt32 := 0
  connects : UInt32 := 0
  disconnects : UInt32 := 0
  subscribes : UInt32 := 0
  ad03Writes : UInt32 := 0
  notifiesSent : UInt32 := 0
  notifiesFailed : UInt32 := 0
  lastAd03Len : UInt32 := 0
  lastAd03 : List UInt8 := []
  deriving DecidableEq, Repr

/-- What the BLE stack does with a notification. -/
inductive NotifyResult
  | noMbuf | failed | sent
  deriving DecidableEq, Repr

/-- A notification the BLE stack accepted. -/
structure Notification where
  connHandle : UInt16
  attrHandle : UInt16
  data : List UInt8
  deriving DecidableEq, Repr

/-- The recorded calls: `nivona_dispatch` and `nivona_gatt_notify`. -/
inductive Call
  | dispatch (cmd : Cmd) (payload : List UInt8)
  | notify (data : List UInt8)
  deriving DecidableEq, Repr

structure Link where
  frame : Frame
  gatt : Gatt
  diag : Diag
  /-- bytes of the GAP device name -/
  deviceName : List UInt8
  /-- the coming draws of `esp_fill_random` -/
  randomKeys : ℕ → KeyPrefix
  notifyResults : ℕ → NotifyResult
  calls : List Call
  wire : List Notification

/-! ## Handshake state -/

def nivonaFrameMarkHandshake (l : Link) (kp : KeyPrefix) : Link :=
  { l with frame := { l.frame with keyPrefix := kp, handshakeDone := true } }

/-- Draw a session key. -/
def Link.drawKey (l : Link) : KeyPrefix × Link :=
  (l.randomKeys 0, { l with randomKeys := fun n => l.randomKeys (n + 1) })

/-- Back to idle, without a session. -/
def nivonaFrameReset (l : Link) : Link :=
  { l with frame :=
      { buf := [], length_buf := Nat.zero_le _, inFrame := false
        handshakeDone := false, keyPrefix := ⟨0, 0⟩ } }

/-! ## GATT -/

def nivonaGattOnConnect (l : Link) (connHandle : UInt16) : Link :=
  { l with
    diag := { l.diag with connects := l.diag.connects + 1 }
    gatt := { l.gatt with connHandle := connHandle, notifySubscribed := false } }

def nivonaGattOnDisconnect (l : Link) : Link :=
  nivonaFrameReset { l with
    diag := { l.diag with disconnects := l.diag.disconnects + 1 }
    gatt := { l.gatt with
      connHandle := BLE_HS_CONN_HANDLE_NONE, notifySubscribed := false } }

def nivonaGattOnSubscribe (l : Link) (attrHandle : UInt16) (curNotify : Bool) : Link :=
  let l := { l with diag := { l.diag with subscribes := l.diag.subscribes + 1 } }
  if l.gatt.notifyHandle = 0 then l
  else if attrHandle = l.gatt.notifyHandle then
    { l with gatt := { l.gatt with notifySubscribed := curNotify } }
  else l

/-- Can a notification be sent at all? -/
def Link.listening (l : Link) : Bool :=
  l.gatt.notifySubscribed && l.gatt.connHandle != BLE_HS_CONN_HANDLE_NONE &&
    l.gatt.notifyHandle != 0

def nivonaGattNotify (l : Link) (data : List UInt8) : Link :=
  let l := { l with calls := l.calls ++ [Call.notify data] }
  if l.listening then
    let rc := l.notifyResults 0
    let l := { l with notifyResults := fun n => l.notifyResults (n + 1) }
    match rc with
    | .noMbuf => l
    | .failed => { l with diag := { l.diag with notifiesFailed := l.diag.notifiesFailed + 1 } }
    | .sent =>
        { l with
          diag := { l.diag with notifiesSent := l.diag.notifiesSent + 1 }
          wire := l.wire ++
            [Notification.mk l.gatt.connHandle l.gatt.notifyHandle data] }
  else l

/-! ## Building and sending frames -/

/-- Complement of the byte sum. -/
def checksum (data : List UInt8) : UInt8 :=
  ~~~(data.foldl (fun s b => s + b) 0)

/-- Body and checksum of a frame, encrypted or not. -/
def frameTail (cmd : Cmd) (body : List UInt8) (encrypt : Bool) : List UInt8 :=
  let plain := body ++ [checksum (cmd ++ body)]
  if encrypt then nivonaRc4WithMasterKey plain else plain

/-- The frame of a command and a body. -/
def frameOf (cmd : Cmd) (body : List UInt8) (encrypt : Bool) : List UInt8 :=
  FRAME_START :: (cmd ++ (frameTail cmd body encrypt ++ [FRAME_END]))

/-- The key prefix a response carries when it is asked for. -/
def sendPrefix (l : Link) (includeKeyPrefix : Bool) : List UInt8 :=
  if includeKeyPrefix && l.frame.handshakeDone then l.frame.keyPrefix.bytes else []

/-- The notifications of one call of `nivona_frame_send`, none for a command of
the wrong length or an oversized frame. -/
def frameSendChunks (l : Link) (cmd : Cmd) (payload : List UInt8)
    (includeKeyPrefix encrypt : Bool) : List (List UInt8) :=
  let kp := sendPrefix l includeKeyPrefix
  let required := 1 + cmd.length + kp.length + payload.length + 1 + 1
  if cmd.length < 1 ∨ 2 < cmd.length then []
  else if MAX_FRAME_BYTES < required then []
  else Chunks.chunks BLE_MTU (frameOf cmd (kp ++ payload) encrypt)

def nivonaFrameSend (l : Link) (cmd : Cmd) (payload : List UInt8)
    (includeKeyPrefix encrypt : Bool) : Link :=
  (frameSendChunks l cmd payload includeKeyPrefix encrypt).foldl nivonaGattNotify l

/-! ## What reaches the peer -/

/-- The stack accepts every notification. -/
def Link.Delivers (l : Link) : Prop :=
  l.listening = true ∧ ∀ n, l.notifyResults n = .sent

/-- A notification the stack accepts reaches the peer. -/
theorem Link.Delivers.notify {l : Link} (h : l.Delivers) (data : List UInt8) :
    (nivonaGattNotify l data).Delivers ∧ (nivonaGattNotify l data).gatt = l.gatt ∧
      (nivonaGattNotify l data).wire =
        l.wire ++ [Notification.mk l.gatt.connHandle l.gatt.notifyHandle data] := by
  obtain ⟨hlisten, hsent⟩ := h
  have hlisten' : Link.listening { l with calls := l.calls ++ [Call.notify data] } = true :=
    hlisten
  simp only [nivonaGattNotify]
  rw [if_pos hlisten', hsent 0]
  exact ⟨⟨hlisten, fun n => hsent (n + 1)⟩, rfl, rfl⟩

/-- So does a series of notifications, in order. -/
theorem Link.Delivers.wire_foldl {l : Link} (h : l.Delivers) (cs : List (List UInt8)) :
    (cs.foldl nivonaGattNotify l).wire =
      l.wire ++ cs.map (Notification.mk l.gatt.connHandle l.gatt.notifyHandle) := by
  induction cs generalizing l with
  | nil => simp
  | cons c cs ih =>
      obtain ⟨hnext, hgatt, hwire⟩ := h.notify c
      rw [List.foldl_cons, ih hnext, hgatt, hwire]
      simp

/-! ## What sending leaves unchanged -/

/-- What a notification puts on the wire. -/
def Link.posted (l : Link) (data : List UInt8) : List Notification :=
  if l.listening ∧ l.notifyResults 0 = .sent then
    [Notification.mk l.gatt.connHandle l.gatt.notifyHandle data]
  else []

/-- The answers left after a notification. -/
def Link.answersLeft (l : Link) : ℕ → NotifyResult :=
  if l.listening then fun n => l.notifyResults (n + 1) else l.notifyResults

/-- The counters after a notification. -/
def Link.countAnswer (l : Link) : Diag :=
  if l.listening then
    match l.notifyResults 0 with
    | .noMbuf => l.diag
    | .failed => { l.diag with notifiesFailed := l.diag.notifiesFailed + 1 }
    | .sent => { l.diag with notifiesSent := l.diag.notifiesSent + 1 }
  else l.diag

/-- All that a notification does. -/
theorem nivonaGattNotify_spec (l : Link) (data : List UInt8) :
    nivonaGattNotify l data =
      { l with
        calls := l.calls ++ [Call.notify data]
        diag := l.countAnswer
        notifyResults := l.answersLeft
        wire := l.wire ++ l.posted data } := by
  have hlisten : Link.listening { l with calls := l.calls ++ [Call.notify data] } =
      l.listening := rfl
  rw [Link.countAnswer, Link.answersLeft, Link.posted]
  simp only [nivonaGattNotify, hlisten]
  split
  · rename_i hl
    cases hrc : l.notifyResults 0 <;> simp [hl]
  · rename_i hl
    simp [hl]

/-- A notification is recorded; beyond that it only touches the counters, the
answers of the stack and the wire. -/
theorem nivonaGattNotify_eq (l : Link) (data : List UInt8) :
    ∃ diag results wire, nivonaGattNotify l data =
      { l with
        calls := l.calls ++ [Call.notify data]
        diag := diag, notifyResults := results, wire := wire } :=
  ⟨_, _, _, nivonaGattNotify_spec l data⟩

/-- The same for a series of notifications. -/
theorem foldl_nivonaGattNotify_eq (cs : List (List UInt8)) (l : Link) :
    ∃ diag results wire, cs.foldl nivonaGattNotify l =
      { l with
        calls := l.calls ++ cs.map Call.notify
        diag := diag, notifyResults := results, wire := wire } := by
  induction cs generalizing l with
  | nil => exact ⟨l.diag, l.notifyResults, l.wire, by simp⟩
  | cons c cs ih =>
      obtain ⟨d, r, w, h⟩ := nivonaGattNotify_eq l c
      obtain ⟨d', r', w', h'⟩ := ih (nivonaGattNotify l c)
      refine ⟨d', r', w', ?_⟩
      rw [List.foldl_cons, h', h]
      simp

/-- `l'` is `l` after some notifications: session, connection and random draws
are as before. -/
def Link.Sends (l l' : Link) : Prop :=
  ∃ (cs : List (List UInt8)) (diag : Diag) (results : ℕ → NotifyResult)
    (wire : List Notification), l' =
    { l with
      calls := l.calls ++ cs.map Call.notify
      diag := diag, notifyResults := results, wire := wire }

theorem Link.Sends.trans {l₁ l₂ l₃ : Link} (h₁ : l₁.Sends l₂) (h₂ : l₂.Sends l₃) :
    l₁.Sends l₃ := by
  obtain ⟨cs, d, r, w, rfl⟩ := h₁
  obtain ⟨cs', d', r', w', rfl⟩ := h₂
  exact ⟨cs ++ cs', d', r', w', by simp⟩

/-- Counting is invisible to the session. -/
theorem Link.Sends.onDiag (l : Link) (d : Diag) : l.Sends { l with diag := d } :=
  ⟨[], d, l.notifyResults, l.wire, by simp⟩

section

variable {l l' : Link}

theorem Link.Sends.frame_eq (h : l.Sends l') : l'.frame = l.frame := by
  obtain ⟨_, _, _, _, rfl⟩ := h
  rfl

theorem Link.Sends.calls_eq (h : l.Sends l') :
    ∃ cs : List (List UInt8), l'.calls = l.calls ++ cs.map Call.notify := by
  obtain ⟨cs, _, _, _, rfl⟩ := h
  exact ⟨cs, rfl⟩

end

section

variable (l : Link) (cmd : Cmd) (payload : List UInt8) (kp enc : Bool)

theorem nivonaFrameSend_eq :
    ∃ diag results wire, nivonaFrameSend l cmd payload kp enc =
      { l with
        calls := l.calls ++ (frameSendChunks l cmd payload kp enc).map Call.notify
        diag := diag, notifyResults := results, wire := wire } :=
  foldl_nivonaGattNotify_eq _ l

theorem sends_nivonaFrameSend : l.Sends (nivonaFrameSend l cmd payload kp enc) := by
  obtain ⟨d, r, w, h⟩ := nivonaFrameSend_eq l cmd payload kp enc
  exact ⟨_, d, r, w, h⟩

@[simp] theorem nivonaFrameSend_frame :
    (nivonaFrameSend l cmd payload kp enc).frame = l.frame := by
  obtain ⟨d, r, w, h⟩ := nivonaFrameSend_eq l cmd payload kp enc
  rw [h]

theorem nivonaFrameSend_calls :
    (nivonaFrameSend l cmd payload kp enc).calls =
      l.calls ++ (frameSendChunks l cmd payload kp enc).map Call.notify := by
  obtain ⟨d, r, w, h⟩ := nivonaFrameSend_eq l cmd payload kp enc
  rw [h]

end

end Nivona
