import NivonaEmulator.Handshake

/-!
# Request round trip over a session

A handshake and then any requests of fixed size, with noise between the frames
and the stream cut anywhere: every request is dispatched once, as it was sent.
-/

namespace Nivona

/-! ## Requests of fixed size -/

/-- The commands whose requests have a fixed size. -/
inductive FixedCmd
  | hv | hx | hi | hr | ha | hw | hd | hy | hz | he | hc | hj
  deriving DecidableEq, Repr

/-- Second byte of the command. -/
def FixedCmd.code : FixedCmd → UInt8
  | .hv => 0x56
  | .hx => 0x58
  | .hi => 0x49
  | .hr => 0x52
  | .ha => 0x41
  | .hw => 0x57
  | .hd => 0x44
  | .hy => 0x59
  | .hz => 0x5A
  | .he => 0x45
  | .hc => 0x43
  | .hj => 0x4A

def FixedCmd.payloadSize : FixedCmd → ℕ
  | .hv => 0
  | .hx => 0
  | .hi => 0
  | .hr => 2
  | .ha => 2
  | .hw => 6
  | .hd => 2
  | .hy => 4
  | .hz => 4
  | .he => 18
  | .hc => 2
  | .hj => 66

/-- The size table of the parser counts prefix, checksum and framing. -/
theorem expectedRequestSize_code (cmd : FixedCmd) :
    expectedRequestSize cmd.code = KEY_PREFIX_LEN + cmd.payloadSize + 5 := by
  cases cmd <;> rfl

theorem hCmd_code_ne_handshake (cmd : FixedCmd) : hCmd cmd.code ≠ CMD_HANDSHAKE := by
  cases cmd <;> decide

/-- A request whose payload has the size its command asks for. -/
structure Request where
  cmd : FixedCmd
  payload : List UInt8
  size : payload.length = cmd.payloadSize

/-- The request frame of a client that holds the key. -/
def Request.encode (kp : KeyPrefix) (r : Request) : List UInt8 :=
  Client.buildFrame (hCmd r.cmd.code) r.payload kp.bytes true

/-- The dispatch a request asks for. -/
def Request.call (r : Request) : Cmd × List UInt8 := (hCmd r.cmd.code, r.payload)

/-- Bytes a client may send between frames. -/
abbrev Noise := { bytes : List UInt8 // FRAME_START ∉ bytes }

/-- Requests with noise before each. -/
def requestStream (kp : KeyPrefix) (items : List (Noise × Request)) : List UInt8 :=
  items.flatMap fun it => it.1.1 ++ it.2.encode kp

/-! ## One request -/

/-- The parser is between frames of a session with the given key. -/
structure InSession (f : Frame) (kp : KeyPrefix) : Prop where
  inFrame : f.inFrame = false
  handshakeDone : f.handshakeDone = true
  keyPrefix : f.keyPrefix = kp

theorem InSession.idle {f : Frame} {kp : KeyPrefix} (h : InSession f kp) :
    InSession f.idle kp :=
  ⟨rfl, h.handshakeDone, h.keyPrefix⟩

/-- A request is dispatched with its payload, and the session goes on. -/
theorem feed_request {m : Machine} {kp : KeyPrefix} (h : InSession m.link.frame kp)
    (r : Request) :
    let m' := nivonaFrameFeed m (r.encode kp)
    m'.link.frame = m.link.frame.idle ∧
      dispatches m'.link.calls = dispatches m.link.calls ++ [r.call] := by
  have hsize : expectedRequestSize r.cmd.code = (kp.bytes ++ r.payload).length + 5 := by
    rw [expectedRequestSize_code, List.length_append, KeyPrefix.length_bytes, r.size]
  have hstrip : stripPrefix m.link.frame true (kp.bytes ++ r.payload) = r.payload := by
    rw [← h.keyPrefix]
    exact stripPrefix_of_prefixed h.handshakeDone r.payload
  obtain ⟨d, hle, hfeed⟩ := feed_fixedSize h.inFrame hsize
  rw [hstrip] at hfeed
  dsimp only
  rw [Request.encode, Client.buildFrame_eq, hfeed]
  constructor
  · have hframe := nivonaDispatch_frame
      ((m.receiving (frameOf (hCmd r.cmd.code) (kp.bytes ++ r.payload) true) hle).withDiag d)
      r.payload (hCmd_code_ne_handshake r.cmd)
    exact (congrArg Frame.idle hframe).trans rfl
  · rw [closeFrame_calls, dispatches_nivonaDispatch]
    rfl

/-! ## A whole session -/

/-- Every request of a stream is dispatched once, in order. -/
theorem feed_requestStream {kp : KeyPrefix} (items : List (Noise × Request)) (m : Machine)
    (h : InSession m.link.frame kp) :
    let m' := nivonaFrameFeed m (requestStream kp items)
    InSession m'.link.frame kp ∧ (m.link.frame.buf = [] → m'.link.frame.buf = []) ∧
      dispatches m'.link.calls =
        dispatches m.link.calls ++ items.map fun it => it.2.call := by
  induction items generalizing m with
  | nil => exact ⟨h, id, by simp [requestStream]⟩
  | cons it items ih =>
      obtain ⟨hframe, hcalls⟩ := feed_request h it.2
      have hsession : InSession (nivonaFrameFeed m (it.2.encode kp)).link.frame kp := by
        rw [hframe]
        exact h.idle
      obtain ⟨hs, hbuf, hd⟩ := ih _ hsession
      have hsplit : nivonaFrameFeed m (requestStream kp (it :: items)) =
          nivonaFrameFeed (nivonaFrameFeed m (it.2.encode kp)) (requestStream kp items) := by
        rw [requestStream, List.flatMap_cons, List.append_assoc, nivonaFrameFeed_append,
          nivonaFrameFeed_append, feed_noise h.inFrame it.1.2]
        rfl
      dsimp only
      rw [hsplit]
      refine ⟨hs, fun _ => hbuf (by rw [hframe]; rfl), ?_⟩
      rw [hd, hcalls, List.map_cons, List.append_assoc]
      rfl

/-- The session key in a handshake response, as the client decodes it. -/
def Client.sessionKey (response : List UInt8) : Option KeyPrefix :=
  match Client.parseFrame 2 true 0 response with
  | some (_, body) => some ⟨body.getD 4 0, body.getD 5 0⟩
  | none => none

/-- The key in the last notification of a record. -/
def lastSessionKey (calls : List Call) : Option KeyPrefix :=
  (notifies calls).getLast?.bind Client.sessionKey

theorem sessionKey_huResponse {seed : List UInt8} (hseed : seed.length = 4) (kp : KeyPrefix) :
    Client.sessionKey (frameOf CMD_HANDSHAKE (huResponse seed kp) true) = some kp := by
  rw [Client.sessionKey, parseFrame_huResponse]
  match seed, hseed with
  | [_, _, _, _], _ => rfl

/-- After noise and a handshake request the client knows the key of the session. -/
theorem feed_handshake (c : Core) (l : Link) {seed : List UInt8} (hseed : seed.length = 4)
    (lead : Noise) :
    let m : Machine := { core := c, link := nivonaFrameReset l }
    let m' := nivonaFrameFeed m (lead.1 ++ Client.buildHuFrame seed)
    InSession m'.link.frame (l.randomKeys 0) ∧ m'.link.frame.buf = [] ∧
      lastSessionKey m'.link.calls = some (l.randomKeys 0) ∧
      dispatches m'.link.calls = dispatches l.calls ++
        [(CMD_HANDSHAKE, seed ++ nivonaHuVerifier seed 0 4)] := by
  have hfree : ¬SeedCollides (nivonaFrameReset l).frame seed := by
    rintro ⟨hdone, -⟩
    cases hdone
  obtain ⟨hcalls, hframe⟩ := feed_hu_answered
    (m := { core := c, link := nivonaFrameReset l }) rfl hseed hfree
  dsimp only
  rw [nivonaFrameFeed_append, feed_noise rfl lead.2, hframe, hcalls]
  refine ⟨⟨rfl, rfl, rfl⟩, rfl, ?_, ?_⟩
  · rw [lastSessionKey, notifies_append]
    exact (congrArg (Option.bind · Client.sessionKey) List.getLast?_concat).trans
      (sessionKey_huResponse hseed _)
  · rw [dispatches_append]
    rfl

/-- From a freshly reset parser, a handshake and any requests built with the
key of its response are dispatched once each, in order and unchanged, however
the stream is cut, and the parser is idle at the end. -/
theorem session_roundtrip (c : Core) (l : Link) (seed : List UInt8) (hseed : seed.length = 4)
    (lead : Noise) (items : List (Noise × Request)) (tail : Noise) (kp : KeyPrefix)
    (hkp : lastSessionKey (nivonaFrameFeed { core := c, link := nivonaFrameReset l }
      (lead.1 ++ Client.buildHuFrame seed)).link.calls = some kp)
    (chunks : List (List UInt8))
    (hcut : chunks.flatten =
      lead.1 ++ Client.buildHuFrame seed ++ requestStream kp items ++ tail.1) :
    let m' := chunks.foldl nivonaFrameFeed { core := c, link := nivonaFrameReset l }
    dispatches m'.link.calls = dispatches l.calls ++
        (CMD_HANDSHAKE, seed ++ nivonaHuVerifier seed 0 4) ::
          items.map (fun it => (hCmd it.2.cmd.code, it.2.payload)) ∧
      m'.link.frame.inFrame = false ∧ m'.link.frame.buf = [] := by
  obtain ⟨hs, hbuf, hkey, hd⟩ := feed_handshake c l hseed lead
  obtain rfl : l.randomKeys 0 = kp := by
    rw [hkey] at hkp
    exact Option.some.inj hkp
  obtain ⟨hs', hbuf', hd'⟩ := feed_requestStream items _ hs
  dsimp only
  rw [foldl_nivonaFrameFeed, hcut, nivonaFrameFeed_append, nivonaFrameFeed_append,
    feed_noise hs'.inFrame tail.2]
  refine ⟨?_, hs'.inFrame, hbuf' hbuf⟩
  rw [hd', hd, List.append_assoc]
  rfl

/-- A session with a status request and noise, byte by byte. -/
theorem session_roundtrip_status :
    let items : List (Noise × Request) :=
      [(⟨[0x45, 0x00], by decide⟩, ⟨.hx, [], rfl⟩), (⟨[], by decide⟩, ⟨.hr, [0x02, 0x58], rfl⟩)]
    let stream := Client.buildHuFrame [0xB3, 0x89, 0x00, 0x48] ++
      requestStream ⟨0x12, 0x34⟩ items
    dispatches ((stream.map fun b => [b]).foldl nivonaFrameFeed Machine.factoryFresh).link.calls =
      [(CMD_HANDSHAKE, [0xB3, 0x89, 0x00, 0x48] ++
          nivonaHuVerifier [0xB3, 0x89, 0x00, 0x48] 0 4),
        (CMD_READ_STATUS, []), (CMD_READ_NUMERICAL, [0x02, 0x58])] := by
  intro items stream
  have hreset : Machine.factoryFresh =
      { core := Machine.factoryFresh.core
        link := nivonaFrameReset Machine.factoryFresh.link } := rfl
  have hkey := (feed_handshake Machine.factoryFresh.core Machine.factoryFresh.link
    (show [0xB3, 0x89, 0x00, 0x48].length = 4 from rfl) ⟨[], by decide⟩).2.2.1
  have hflat (bs : List UInt8) : (bs.map fun b => [b]).flatten = bs := by
    induction bs with
    | nil => rfl
    | cons b bs ih => rw [List.map_cons, List.flatten_cons, ih]; rfl
  rw [hreset]
  exact (session_roundtrip Machine.factoryFresh.core Machine.factoryFresh.link
    [0xB3, 0x89, 0x00, 0x48] rfl ⟨[], by decide⟩ items ⟨[], by decide⟩ ⟨0x12, 0x34⟩ hkey
    (stream.map fun b => [b]) (by rw [hflat]; simp [stream])).1

end Nivona
