import NivonaEmulator.Session
import NivonaEmulator.System

/-!
# The session gate

Commands that act on the machine are meant for clients that know the session
key.  The parser only uses the key to cut the prefix off: a frame without it is
dispatched all the same, so the gate holds exactly on the streams that contain
no such frame.
-/

namespace Nivona

/-! ## The gate -/

/-- Decrypted body of a received frame, without its checksum. -/
def receivedBody (p : List UInt8) : List UInt8 :=
  (nivonaRc4WithMasterKey (p.drop 3).dropLast).dropLast

/-- The handshake is complete and the frame starts with the session key. -/
def Authenticated (f : Frame) (p : List UInt8) : Prop :=
  f.handshakeDone = true ∧ (receivedBody p).take KEY_PREFIX_LEN = f.keyPrefix.bytes

/-- Registers, status and brew flags are the same in both. -/
structure SameState (c c' : Core) : Prop where
  storage : c'.device.toStorage = c.device.toStorage
  status : c'.status = c.status
  active : c'.brew.active = c.brew.active
  cancel : c'.brew.cancel = c.brew.cancel

theorem SameState.of_eq {c c' : Core} (h : c' = c) : SameState c c' := by
  subst h
  exact ⟨rfl, rfl, rfl, rfl⟩

/-- A byte that ends an unauthenticated frame reaches no action handler and
changes nothing. -/
def GateAt (m : Machine) (b : UInt8) : Prop :=
  ¬Authenticated m.link.frame (m.link.frame.buf ++ [b]) →
    (∀ cmd payload,
      Call.dispatch cmd payload ∈ (feedByte m b).link.calls.drop m.link.calls.length →
        cmd ∉ ACTION_CMDS) ∧
    SameState m.core (feedByte m b).core

/-- The byte ends a frame of an action command whose body does not start with
the key of a completed handshake. -/
def Forged (m : Machine) (b : UInt8) : Prop :=
  m.link.frame.inFrame = true ∧ m.link.frame.buf.length < MAX_FRAME_BYTES ∧
    frameComplete (m.link.frame.buf ++ [b]) b = true ∧
    ∃ c body, hCmd c ∈ ACTION_CMDS ∧
      m.link.frame.buf ++ [b] = frameOf (hCmd c) body true ∧
      ¬(m.link.frame.handshakeDone = true ∧
        body.take KEY_PREFIX_LEN = m.link.frame.keyPrefix.bytes)

/-! ## One byte -/

theorem receivedBody_frameOf (c : UInt8) (body : List UInt8) :
    receivedBody (frameOf (hCmd c) body true) = body := by
  rw [receivedBody, frameOf_hCmd, List.drop_succ_cons, List.drop_succ_cons,
    List.drop_succ_cons, List.drop_zero, List.dropLast_concat, cipherBody,
    nivonaRc4WithMasterKey_involutive, List.dropLast_concat]

/-- The dispatches of a step that starts with the given record. -/
theorem dispatch_mem_drop_iff {calls new : List Call} {cmd : Cmd} {payload : List UInt8}
    {cs : List (List UInt8)} (h : new = calls ++ Call.dispatch cmd payload :: cs.map Call.notify)
    (cmd' : Cmd) (payload' : List UInt8) :
    Call.dispatch cmd' payload' ∈ new.drop calls.length ↔
      cmd' = cmd ∧ payload' = payload := by
  rw [h, List.drop_left]
  simp

/-- Without a forged frame the byte respects the gate. -/
theorem gateAt_of_not_forged {m : Machine} {b : UInt8} (h : ¬Forged m b) : GateAt m b := by
  intro hauth
  rcases feedByte_cases m b with ⟨hcalls, hcore⟩ | ⟨hin, hroom, hc⟩
  · rw [hcalls, List.drop_length]
    exact ⟨by simp, .of_eq hcore⟩
  rw [feedByte_ends hin hroom hc, closeFrame_calls, closeFrame_core]
  obtain ⟨d, hreject | ⟨c, body, hbuf, hparse⟩ | ⟨a, payload, -, ha, hparse⟩⟩ :=
    tryParse_cases (m.receiving (m.link.frame.buf ++ [b]) (length_push_le hroom))
  · rw [hreject, Machine.withDiag_calls, receiving_calls, List.drop_length]
    exact ⟨by simp, .of_eq rfl⟩
  · rw [receiving_buf] at hbuf
    -- an action frame that opens here would be forged
    have hread : hCmd c ∉ ACTION_CMDS := fun haction =>
      h ⟨hin, hroom, hc, c, body, haction, hbuf, by
        rwa [Authenticated, hbuf, receivedBody_frameOf] at hauth⟩
    obtain ⟨cs, hcs⟩ := nivonaDispatch_calls
      ((m.receiving _ (length_push_le hroom)).withDiag d) (hCmd c)
      (stripPrefix (m.receiving _ (length_push_le hroom)).link.frame true body)
    rw [hparse, nivonaDispatch_core _ _ hread]
    refine ⟨?_, .of_eq rfl⟩
    intro cmd payload hmem
    rw [((dispatch_mem_drop_iff hcs cmd payload).mp hmem).1]
    exact hread
  · have hread : [a] ∉ ACTION_CMDS := by
      rcases ha with rfl | rfl <;> decide
    obtain ⟨cs, hcs⟩ := nivonaDispatch_calls
      ((m.receiving _ (length_push_le hroom)).withDiag d) [a] payload
    rw [hparse, nivonaDispatch_core _ _ hread]
    refine ⟨?_, .of_eq rfl⟩
    intro cmd payload' hmem
    rw [((dispatch_mem_drop_iff hcs cmd payload').mp hmem).1]
    exact hread

/-- A forged frame is dispatched. -/
theorem not_gateAt_of_forged {m : Machine} {b : UInt8} (h : Forged m b) : ¬GateAt m b := by
  obtain ⟨hin, hroom, hc, c, body, haction, hbuf, hforged⟩ := h
  intro hgate
  have hauth : ¬Authenticated m.link.frame (m.link.frame.buf ++ [b]) := by
    rwa [Authenticated, hbuf, receivedBody_frameOf]
  obtain ⟨d, hparse⟩ := tryParse_frameOf
    (m := m.receiving (m.link.frame.buf ++ [b]) (length_push_le hroom)) hbuf
  obtain ⟨cs, hcs⟩ := nivonaDispatch_calls
    ((m.receiving _ (length_push_le hroom)).withDiag d) (hCmd c)
    (stripPrefix m.link.frame true body)
  refine (hgate hauth).1 (hCmd c) (stripPrefix m.link.frame true body) ?_ haction
  rw [feedByte_ends hin hroom hc, closeFrame_calls, hparse, stripPrefix_receiving]
  exact (dispatch_mem_drop_iff hcs _ _).mpr ⟨rfl, rfl⟩

theorem gateAt_iff_not_forged (m : Machine) (b : UInt8) : GateAt m b ↔ ¬Forged m b :=
  ⟨fun hgate hforged => not_gateAt_of_forged hforged hgate, gateAt_of_not_forged⟩

/-! ## Streams -/

/-- From every session state, a byte stream respects the gate at every byte
exactly when no byte of it ends a forged frame. -/
theorem sessionGate_iff (m : Machine) (stream : List UInt8) :
    Runs.Guarded feedByte GateAt m stream ↔
      Runs.Guarded feedByte (fun m b => ¬Forged m b) m stream := by
  have hguard : GateAt = fun m b => ¬Forged m b := by
    funext m b
    exact propext (gateAt_iff_not_forged m b)
  rw [hguard]

/-- A request that writes 0 to register 600, in the clear of any session. -/
def forgedWrite : List UInt8 := frameOf (hCmd 0x57) [0x02, 0x58, 0, 0, 0, 0, 0, 0] true

/-- A new machine carries the request out before any handshake. -/
theorem factoryFresh_accepts_forgedWrite :
    ¬Runs.Guarded feedByte GateAt Machine.factoryFresh forgedWrite := by
  have hinit : (FRAME_START :: 0x48 :: 0x57 ::
      cipherBody (hCmd 0x57) [0x02, 0x58, 0, 0, 0, 0, 0, 0]).length ≤ MAX_FRAME_BYTES := by
    simp [MAX_FRAME_BYTES]
  have hfeed := feed_init (m := Machine.factoryFresh) rfl hinit
    (incomplete_fixedSize (c := 0x57) (show _ = [0x02, 0x58, 0, 0, 0, 0, 0, 0].length + 5 from rfl))
  have hshape : forgedWrite =
      (FRAME_START :: 0x48 :: 0x57 :: cipherBody (hCmd 0x57) [0x02, 0x58, 0, 0, 0, 0, 0, 0]) ++
        [FRAME_END] := rfl
  rw [hshape, Runs.guarded_append]
  rintro ⟨-, hlast, -⟩
  rw [nivonaFrameFeed] at hfeed
  rw [Runs.run, hfeed] at hlast
  refine not_gateAt_of_forged ⟨rfl, ?_, ?_, 0x57, [0x02, 0x58, 0, 0, 0, 0, 0, 0],
    by decide, rfl, ?_⟩ hlast
  · rw [receiving_buf]
    simp [MAX_FRAME_BYTES]
  · rw [receiving_buf, List.cons_append, List.cons_append, List.cons_append,
      frameComplete_hCmd]
    simp [expectedRequestSize]
  · rintro ⟨hdone, -⟩
    cases hdone

end Nivona
