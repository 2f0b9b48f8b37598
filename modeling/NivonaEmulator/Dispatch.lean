import NivonaEmulator.Link
import NivonaEmulator.MaintCycle

/-!
# Command dispatch

The handlers of the protocol commands, on the core and the link together.
-/

namespace Nivona

structure Machine where
  core : Core
  link : Link

/-! ## Responses -/

def sendResponse (m : Machine) (cmd : Cmd) (payload : List UInt8) : Machine :=
  { m with link := nivonaFrameSend m.link cmd payload false true }

def sendAck (m : Machine) : Machine :=
  { m with link := nivonaFrameSend m.link CMD_ACK [] false false }

def sendNack (m : Machine) : Machine :=
  { m with link := nivonaFrameSend m.link CMD_NACK [] false false }

/-- The unsolicited HX of a running task. -/
def pushStatus (m : Machine) : Machine :=
  { m with link :=
      nivonaFrameSend m.link CMD_READ_STATUS (nivonaFsmPackStatus m.core.status) false true }

/-- A buffer of `n` zero bytes with `data` copied to its start. -/
def zeroPadded (n : ℕ) (data : List UInt8) : List UInt8 :=
  data.take n ++ List.replicate (n - data.length) 0

@[simp] theorem length_zeroPadded (n : ℕ) (data : List UInt8) :
    (zeroPadded n data).length = n := by
  rw [zeroPadded, List.length_append, List.length_take, List.length_replicate]
  omega

/-! ## Reads -/

/-- Body of the handshake response: seed, session key, verifier. -/
def huResponse (seed : List UInt8) (kp : KeyPrefix) : List UInt8 :=
  seed ++ kp.bytes ++ nivonaHuVerifier (seed ++ kp.bytes) 0 6

/-- A wrong verifier is counted and otherwise ignored. -/
def handleHu (m : Machine) (payload : List UInt8) : Machine :=
  let l := { m.link with diag := { m.link.diag with huRx := m.link.diag.huRx + 1 } }
  if payload.length < 6 then { m with link := l }
  else
    let diag :=
      if (payload.drop 4).take 2 = nivonaHuVerifier payload 0 4 then
        { l.diag with huVerOk := l.diag.huVerOk + 1 }
      else { l.diag with huVerBad := l.diag.huVerBad + 1 }
    let (kp, l) := { l with diag := diag }.drawKey
    let l := nivonaFrameMarkHandshake l kp
    let m := sendResponse { m with link := l } CMD_HANDSHAKE (huResponse (payload.take 4) kp)
    { m with link := { m.link with
        diag := { m.link.diag with huResp := m.link.diag.huResp + 1 } } }

def handleHx (m : Machine) : Machine :=
  let m := sendResponse m CMD_READ_STATUS (nivonaFsmPackStatus m.core.status)
  { m with link := { m.link with
      diag := { m.link.diag with hxResp := m.link.diag.hxResp + 1 } } }

/-- `NIVONA v1.0`. -/
def handleHv (m : Machine) : Machine :=
  sendResponse m CMD_READ_VERSION
    [0x4E, 0x49, 0x56, 0x4F, 0x4E, 0x41, 0x20, 0x76, 0x31, 0x2E, 0x30]

/-- `NIVONA-`, cut off the device name. -/
def serialPrefix : List UInt8 := [0x4E, 0x49, 0x56, 0x4F, 0x4E, 0x41, 0x2D]

def handleHl (m : Machine) : Machine :=
  let name := m.link.deviceName
  let name := if serialPrefix.isPrefixOf name then name.drop 7 else name
  sendResponse m CMD_HL (zeroPadded 20 name)

def handleHi (m : Machine) : Machine :=
  sendResponse m CMD_READ_FEATURES (List.replicate 10 0)

def handleHs (m : Machine) : Machine :=
  sendResponse m CMD_HS (List.replicate 10 0)

def handleHp (m : Machine) : Machine :=
  sendResponse m CMD_Hp (List.replicate 24 0)

/-- Register id of a request; 0 when it is cut short. -/
def requestId (req : List UInt8) : Int16 :=
  if 2 ≤ req.length then be16I req else 0

def handleHr (m : Machine) (req : List UInt8) : Machine :=
  let id := requestId req
  let v := nivonaStoreGetNum m.core.device.toStorage id
  sendResponse m CMD_READ_NUMERICAL (putBe16 id ++ putBe32 v)

def handleHa (m : Machine) (req : List UInt8) : Machine :=
  let id := requestId req
  let data := nivonaStoreGetAlpha m.core.device.toStorage id NIVONA_ALPHA_MAX
  sendResponse m CMD_READ_ALPHA (putBe16 id ++ zeroPadded NIVONA_ALPHA_MAX data)

def handleHcStub (m : Machine) (req : List UInt8) : Machine :=
  sendResponse m CMD_READ_RECIPE
    (zeroPadded 66 (if 2 ≤ req.length then req.take 2 else []))

/-! ## Writes and actions -/

def handleHw (m : Machine) (req : List UInt8) : Machine :=
  let core :=
    if 6 ≤ req.length then
      m.core.onStorage fun s => nivonaStoreSetNum s (be16I req) (be32I (req.drop 2))
    else m.core
  sendAck { m with core := core }

def handleHb (m : Machine) (req : List UInt8) : Machine :=
  let core :=
    if 2 ≤ req.length then
      m.core.onStorage fun s =>
        nivonaStoreSetAlpha s (be16I req) ((req.drop 2).take NIVONA_ALPHA_MAX)
    else m.core
  sendAck { m with core := core }

/-- Mode, selector and flags of a brew request; missing bytes are 0. -/
def handleHe (m : Machine) (payload : List UInt8) : Machine :=
  let mode := payload.getD 1 0
  let recipeSelector := payload.getD 3 0
  let flags := payload.getD 5 0
  if mode ≠ m.core.family.brewCommandMode then sendNack m
  else if flags ≠ 0 ∧ flags ≠ 1 then sendNack m
  else
    let (core, started) := nivonaBrewStart m.core recipeSelector.toUInt16.toInt16 false
    if started then sendAck { m with core := core } else sendNack { m with core := core }

def handleHz (m : Machine) : Machine :=
  sendAck { m with core := nivonaBrewCancel m.core }

/-- The prompt is re-checked, and the reply is an ACK whatever comes out. -/
def handleHy (m : Machine) : Machine :=
  sendAck { m with core := (nivonaMaintHandleConfirm m.core).1 }

def handleHd (m : Machine) (payload : List UInt8) : Machine :=
  let core :=
    if 2 ≤ payload.length then
      m.core.onStorage fun s => nivonaStoreEraseNum s (be16I payload)
    else m.core
  sendAck { m with core := core }

/-- Unknown commands are counted and acknowledged. -/
def handleUnhandled (m : Machine) : Machine :=
  sendAck { m with link := { m.link with
    diag := { m.link.diag with unhandled := m.link.diag.unhandled + 1 } } }

/-! ## Dispatcher -/

/-- The handler of a command. -/
def dispatchHandler (m : Machine) (cmd : Cmd) (payload : List UInt8) : Machine :=
  if cmd = CMD_HANDSHAKE then handleHu m payload
  else if cmd = CMD_READ_STATUS then handleHx m
  else if cmd = CMD_READ_VERSION then handleHv m
  else if cmd = CMD_READ_FEATURES then handleHi m
  else if cmd = CMD_HL then handleHl m
  else if cmd = CMD_HS then handleHs m
  else if cmd = CMD_Hp then handleHp m
  else if cmd = CMD_READ_NUMERICAL then handleHr m payload
  else if cmd = CMD_READ_ALPHA then handleHa m payload
  else if cmd = CMD_READ_RECIPE then handleHcStub m payload
  else if cmd = CMD_WRITE_NUMERICAL then handleHw m payload
  else if cmd = CMD_WRITE_ALPHA then handleHb m payload
  else if cmd = CMD_START_PROCESS then handleHe m payload
  else if cmd = CMD_CANCEL_PROCESS then handleHz m
  else if cmd = CMD_CONFIRM_PROMPT then handleHy m
  else if cmd = CMD_RESET_DEFAULT then handleHd m payload
  else if cmd = CMD_WRITE_RECIPE then sendAck m
  else if cmd = CMD_HN then sendAck m
  else handleUnhandled m

/-- `nivona_dispatch`, with the call recorded. -/
def nivonaDispatch (m : Machine) (cmd : Cmd) (payload : List UInt8) : Machine :=
  dispatchHandler
    { m with link := { m.link with calls := m.link.calls ++ [Call.dispatch cmd payload] } }
    cmd payload

/-- A property of what the dispatcher does is proved handler by handler. -/
theorem dispatchHandler_induction {P : Machine → Prop} {m : Machine} {cmd : Cmd}
    {payload : List UInt8}
    (hu : cmd = CMD_HANDSHAKE → P (handleHu m payload))
    (hx : cmd = CMD_READ_STATUS → P (handleHx m))
    (hv : cmd = CMD_READ_VERSION → P (handleHv m))
    (hi : cmd = CMD_READ_FEATURES → P (handleHi m))
    (hl : cmd = CMD_HL → P (handleHl m))
    (hs : cmd = CMD_HS → P (handleHs m))
    (hp : cmd = CMD_Hp → P (handleHp m))
    (hr : cmd = CMD_READ_NUMERICAL → P (handleHr m payload))
    (ha : cmd = CMD_READ_ALPHA → P (handleHa m payload))
    (hc : cmd = CMD_READ_RECIPE → P (handleHcStub m payload))
    (hw : cmd = CMD_WRITE_NUMERICAL → P (handleHw m payload))
    (hb : cmd = CMD_WRITE_ALPHA → P (handleHb m payload))
    (he : cmd = CMD_START_PROCESS → P (handleHe m payload))
    (hz : cmd = CMD_CANCEL_PROCESS → P (handleHz m))
    (hy : cmd = CMD_CONFIRM_PROMPT → P (handleHy m))
    (hd : cmd = CMD_RESET_DEFAULT → P (handleHd m payload))
    (hj : cmd = CMD_WRITE_RECIPE → P (sendAck m))
    (hn : cmd = CMD_HN → P (sendAck m))
    (unhandled : P (handleUnhandled m)) :
    P (dispatchHandler m cmd payload) := by
  rw [dispatchHandler]
  refine iteInduction (motive := P) hu fun _ => ?_
  refine iteInduction (motive := P) hx fun _ => ?_
  refine iteInduction (motive := P) hv fun _ => ?_
  refine iteInduction (motive := P) hi fun _ => ?_
  refine iteInduction (motive := P) hl fun _ => ?_
  refine iteInduction (motive := P) hs fun _ => ?_
  refine iteInduction (motive := P) hp fun _ => ?_
  refine iteInduction (motive := P) hr fun _ => ?_
  refine iteInduction (motive := P) ha fun _ => ?_
  refine iteInduction (motive := P) hc fun _ => ?_
  refine iteInduction (motive := P) hw fun _ => ?_
  refine iteInduction (motive := P) hb fun _ => ?_
  refine iteInduction (motive := P) he fun _ => ?_
  refine iteInduction (motive := P) hz fun _ => ?_
  refine iteInduction (motive := P) hy fun _ => ?_
  refine iteInduction (motive := P) hd fun _ => ?_
  refine iteInduction (motive := P) hj fun _ => ?_
  exact iteInduction (motive := P) hn fun _ => unhandled

/-- A relation between the branches of two conditionals on one condition. -/
theorem iteInduction₂ {α : Type*} {P : α → α → Prop} {c : Prop} [Decidable c]
    {a b a' b' : α} (hpos : c → P a a') (hneg : ¬c → P b b') :
    P (if c then a else b) (if c then a' else b') := by
  split
  · rename_i hc
    exact hpos hc
  · rename_i hc
    exact hneg hc

/-- So is a relation between what it does with two payloads on two machines. -/
theorem dispatchHandler_induction₂ {P : Machine → Machine → Prop} {m m' : Machine}
    {cmd : Cmd} {payload payload' : List UInt8}
    (hu : cmd = CMD_HANDSHAKE → P (handleHu m payload) (handleHu m' payload'))
    (hx : P (handleHx m) (handleHx m'))
    (hv : P (handleHv m) (handleHv m'))
    (hi : P (handleHi m) (handleHi m'))
    (hl : P (handleHl m) (handleHl m'))
    (hs : P (handleHs m) (handleHs m'))
    (hp : P (handleHp m) (handleHp m'))
    (hr : P (handleHr m payload) (handleHr m' payload'))
    (ha : P (handleHa m payload) (handleHa m' payload'))
    (hc : P (handleHcStub m payload) (handleHcStub m' payload'))
    (hw : P (handleHw m payload) (handleHw m' payload'))
    (hb : P (handleHb m payload) (handleHb m' payload'))
    (he : P (handleHe m payload) (handleHe m' payload'))
    (hz : P (handleHz m) (handleHz m'))
    (hy : P (handleHy m) (handleHy m'))
    (hd : P (handleHd m payload) (handleHd m' payload'))
    (hack : P (sendAck m) (sendAck m'))
    (unhandled : P (handleUnhandled m) (handleUnhandled m')) :
    P (dispatchHandler m cmd payload) (dispatchHandler m' cmd payload') := by
  rw [dispatchHandler, dispatchHandler]
  refine iteInduction₂ hu fun _ => ?_
  refine iteInduction₂ (fun _ => hx) fun _ => ?_
  refine iteInduction₂ (fun _ => hv) fun _ => ?_
  refine iteInduction₂ (fun _ => hi) fun _ => ?_
  refine iteInduction₂ (fun _ => hl) fun _ => ?_
  refine iteInduction₂ (fun _ => hs) fun _ => ?_
  refine iteInduction₂ (fun _ => hp) fun _ => ?_
  refine iteInduction₂ (fun _ => hr) fun _ => ?_
  refine iteInduction₂ (fun _ => ha) fun _ => ?_
  refine iteInduction₂ (fun _ => hc) fun _ => ?_
  refine iteInduction₂ (fun _ => hw) fun _ => ?_
  refine iteInduction₂ (fun _ => hb) fun _ => ?_
  refine iteInduction₂ (fun _ => he) fun _ => ?_
  refine iteInduction₂ (fun _ => hz) fun _ => ?_
  refine iteInduction₂ (fun _ => hy) fun _ => ?_
  refine iteInduction₂ (fun _ => hd) fun _ => ?_
  refine iteInduction₂ (fun _ => hack) fun _ => ?_
  exact iteInduction₂ (fun _ => hack) fun _ => unhandled

/-! ## What the handlers leave unchanged -/

/-- The commands whose handlers act on the core. -/
def ACTION_CMDS : List Cmd :=
  [CMD_WRITE_NUMERICAL, CMD_WRITE_ALPHA, CMD_RESET_DEFAULT, CMD_START_PROCESS,
   CMD_CANCEL_PROCESS, CMD_CONFIRM_PROMPT]

theorem sends_sendAck (m : Machine) : m.link.Sends (sendAck m).link :=
  sends_nivonaFrameSend _ _ _ _ _

theorem sends_sendResponse (m : Machine) (cmd : Cmd) (payload : List UInt8) :
    m.link.Sends (sendResponse m cmd payload).link :=
  sends_nivonaFrameSend _ _ _ _ _

/-- A brew request is answered with ACK or NACK. -/
theorem handleHe_link (m : Machine) (payload : List UInt8) :
    ∃ cmd : Cmd, cmd.length = 1 ∧
      (handleHe m payload).link = nivonaFrameSend m.link cmd [] false false := by
  simp only [handleHe]
  split
  · exact ⟨CMD_NACK, rfl, rfl⟩
  · split
    · exact ⟨CMD_NACK, rfl, rfl⟩
    · split
      · exact ⟨CMD_ACK, rfl, rfl⟩
      · exact ⟨CMD_NACK, rfl, rfl⟩

theorem sends_handleHe (m : Machine) (payload : List UInt8) :
    m.link.Sends (handleHe m payload).link := by
  obtain ⟨cmd, -, hlink⟩ := handleHe_link m payload
  rw [hlink]
  exact sends_nivonaFrameSend _ _ _ _ _

/-- Only the handshake touches the session; every other handler just answers. -/
theorem sends_dispatchHandler (m : Machine) {cmd : Cmd} (payload : List UInt8)
    (hcmd : cmd ≠ CMD_HANDSHAKE) :
    m.link.Sends (dispatchHandler m cmd payload).link := by
  have hresp (c : Cmd) (p : List UInt8) : m.link.Sends (sendResponse m c p).link :=
    sends_sendResponse m c p
  have hack (core : Core) : m.link.Sends (sendAck { m with core := core }).link :=
    sends_sendAck { m with core := core }
  refine dispatchHandler_induction (P := fun m' => m.link.Sends m'.link)
    (fun h => absurd h hcmd) (fun _ => (hresp _ _).trans (Link.Sends.onDiag _ _))
    (fun _ => hresp _ _) (fun _ => hresp _ _) (fun _ => hresp _ _) (fun _ => hresp _ _)
    (fun _ => hresp _ _) (fun _ => hresp _ _) (fun _ => hresp _ _) (fun _ => hresp _ _)
    (fun _ => hack _) (fun _ => hack _) (fun _ => sends_handleHe m payload)
    (fun _ => hack _) (fun _ => hack _) (fun _ => hack _) (fun _ => hack _) (fun _ => hack _)
    ((Link.Sends.onDiag m.link _).trans (sends_sendAck _))

theorem handleHu_core (m : Machine) (payload : List UInt8) :
    (handleHu m payload).core = m.core := by
  simp only [handleHu]
  split <;> rfl

/-- Outside the action commands the core is not touched. -/
theorem dispatchHandler_core (m : Machine) {cmd : Cmd} (payload : List UInt8)
    (hcmd : cmd ∉ ACTION_CMDS) : (dispatchHandler m cmd payload).core = m.core := by
  simp only [ACTION_CMDS, List.mem_cons, List.not_mem_nil, or_false, not_or] at hcmd
  obtain ⟨hw, hb, hd, he, hz, hy⟩ := hcmd
  exact dispatchHandler_induction (P := fun m' => m'.core = m.core)
    (fun _ => handleHu_core m payload) (fun _ => rfl) (fun _ => rfl) (fun _ => rfl)
    (fun _ => rfl) (fun _ => rfl) (fun _ => rfl) (fun _ => rfl) (fun _ => rfl) (fun _ => rfl)
    (fun h => absurd h hw) (fun h => absurd h hb) (fun h => absurd h he)
    (fun h => absurd h hz) (fun h => absurd h hy) (fun h => absurd h hd)
    (fun _ => rfl) (fun _ => rfl) rfl

end Nivona
