import NivonaEmulator.MachineRun
import NivonaEmulator.Session

/-!
# Two machines in step

Machines whose cores a request cannot tell apart, and whose links agree on all
that is not a record of the past, do the same whatever a peer sends them.
-/

namespace Nivona

/-! ## Alike cores -/

/-- The machine state that requests read: stores, consumables, family, status
and the flags of the two modules, with the tasks that can still be created. -/
structure Core.Alike (c c' : Core) : Prop where
  device : c.device = c'.device
  status : c.status = c'.status
  brewReady : c.brew.lockReady = c'.brew.lockReady
  brewActive : c.brew.active = c'.brew.active
  cycleReady : c.cycle.lockReady = c'.cycle.lockReady
  cycleActive : c.cycle.active = c'.cycle.active
  taskResults : c.taskResults = c'.taskResults

section

variable {c c' : Core} (h : c.Alike c')
include h

theorem Core.Alike.family : c.family = c'.family := by
  rw [Core.family, Core.family, h.device]

theorem Core.Alike.onStorage (f : Storage → Storage) :
    (c.onStorage f).Alike (c'.onStorage f) := by
  obtain ⟨hdevice, hstatus, hbr, hba, hcr, hca, htask⟩ := h
  refine ⟨?_, hstatus, hbr, hba, hcr, hca, htask⟩
  simp only [Core.onStorage, hdevice]

/-- The status after a change is the same when it is computed from the same. -/
theorem Core.Alike.withStatus {s s' : Status} (hs : s = s') :
    Core.Alike { c with status := s } { c' with status := s' } := by
  obtain ⟨hdevice, -, hbr, hba, hcr, hca, htask⟩ := h
  exact ⟨hdevice, hs, hbr, hba, hcr, hca, htask⟩

theorem Core.Alike.reevaluate :
    (nivonaMaintReevaluate c).Alike (nivonaMaintReevaluate c') := by
  have hprompt : c.hardPrompt = c'.hardPrompt := by
    rw [Core.hardPrompt, Core.hardPrompt, h.device, h.family]
  refine h.withStatus ?_
  rw [hprompt, h.status]

theorem Core.Alike.confirm :
    (nivonaMaintHandleConfirm c).1.Alike (nivonaMaintHandleConfirm c').1 := by
  have hsoft : nivonaMaintCurrentIsSoft c = nivonaMaintCurrentIsSoft c' := by
    rw [nivonaMaintCurrentIsSoft, nivonaMaintCurrentIsSoft, h.status]
  have hclear : (nivonaFsmSetManipulation c MANIP_NONE).Alike
      (nivonaFsmSetManipulation c' MANIP_NONE) :=
    h.withStatus (by rw [h.status])
  rw [nivonaMaintHandleConfirm, nivonaMaintHandleConfirm, hsoft, h.status]
  split
  · exact h
  · split
    · exact hclear.reevaluate
    · exact h.reevaluate

theorem Core.Alike.brewCancel : (nivonaBrewCancel c).Alike (nivonaBrewCancel c') := by
  rw [nivonaBrewCancel, nivonaBrewCancel, h.brewReady, h.brewActive]
  split
  · exact ⟨h.device, h.status, h.brewReady, h.brewActive, h.cycleReady, h.cycleActive,
      h.taskResults⟩
  · exact h

theorem Core.Alike.brewCommit (sel : UInt8) (recipe : Recipe) (twoCups : Bool) :
    (brewCommit c sel recipe twoCups).1.Alike (brewCommit c' sel recipe twoCups).1 ∧
      (brewCommit c sel recipe twoCups).2 = (brewCommit c' sel recipe twoCups).2 := by
  cases hactive : c'.brew.active with
  | true => simpa [Nivona.brewCommit, h.brewActive, hactive] using h
  | false =>
      cases hcreated : c'.taskResults 0 with
      | true =>
          simp only [Nivona.brewCommit, Core.xTaskCreate, h.brewActive, h.taskResults, hactive,
            hcreated, Bool.false_eq_true, if_false, if_true, and_true]
          exact ⟨h.device, h.status, h.brewReady, rfl, h.cycleReady, h.cycleActive, rfl⟩
      | false =>
          simp only [Nivona.brewCommit, Core.xTaskCreate, h.brewActive, h.taskResults, hactive,
            hcreated, Bool.false_eq_true, if_false, and_true]
          exact ⟨h.device, h.status, h.brewReady, rfl, h.cycleReady, h.cycleActive, rfl⟩

/-- Alike machines start the same brews, and refuse the same. -/
theorem Core.Alike.brewStart (processValue : Int16) (twoCups : Bool) :
    (nivonaBrewStart c processValue twoCups).1.Alike
        (nivonaBrewStart c' processValue twoCups).1 ∧
      (nivonaBrewStart c processValue twoCups).2 =
        (nivonaBrewStart c' processValue twoCups).2 := by
  have hresolve : brewResolve c processValue = brewResolve c' processValue := by
    rw [brewResolve, brewResolve, h.family]
  have hcycle : nivonaMaintCycleActive c = nivonaMaintCycleActive c' := by
    rw [nivonaMaintCycleActive, nivonaMaintCycleActive, h.cycleReady, h.cycleActive]
  have hprompt : brewPromptRefuses c = brewPromptRefuses c' := by
    rw [brewPromptRefuses, brewPromptRefuses, nivonaMaintCurrentIsSoft,
      nivonaMaintCurrentIsSoft, h.status]
  rw [nivonaBrewStart, nivonaBrewStart, h.brewReady, hresolve, hcycle, hprompt]
  split
  · exact ⟨h, rfl⟩
  · split
    · exact ⟨h, rfl⟩
    · split
      · exact ⟨h, rfl⟩
      · split
        · exact ⟨h, rfl⟩
        · exact h.brewCommit _ _ _

end

/-- A relation that no request can tell apart: related cores are alike, and
what requests do keeps them related. -/
structure Indistinct (R : Core → Core → Prop) : Prop where
  alike : ∀ {c c' : Core}, R c c' → c.Alike c'
  request : ∀ {c c' : Core} (op : Op), op.ofRequest = true → R c c' →
    R (coreStep c op) (coreStep c' op)

theorem indistinct_alike : Indistinct Core.Alike where
  alike h := h
  request op hop h := by
    cases op with
    | setNum id value => exact h.onStorage _
    | setAlpha id data => exact h.onStorage _
    | eraseNum id => exact h.onStorage _
    | brewStart processValue twoCups => exact (h.brewStart processValue twoCups).1
    | brewCancel => exact h.brewCancel
    | confirm => exact h.confirm
    | _ => exact absurd hop Bool.false_ne_true

theorem indistinct_eq : Indistinct Eq where
  alike h := by
    subst h
    exact ⟨rfl, rfl, rfl, rfl, rfl, rfl, rfl⟩
  request op _ h := by rw [h]

/-! ## Links in step -/

/-- Both lists were extended by the same entries. -/
def SameAdded {α : Type*} (a a' l l' : List α) : Prop :=
  ∃ new, l = a ++ new ∧ l' = a' ++ new

theorem SameAdded.refl {α : Type*} (a a' : List α) : SameAdded a a' a a' :=
  ⟨[], by simp, by simp⟩

theorem SameAdded.append {α : Type*} {a a' l l' : List α} (h : SameAdded a a' l l')
    (more : List α) : SameAdded a a' (l ++ more) (l' ++ more) := by
  obtain ⟨new, rfl, rfl⟩ := h
  exact ⟨new ++ more, by simp, by simp⟩

theorem SameAdded.drop_eq {α : Type*} {a a' l l' : List α} (h : SameAdded a a' l l') :
    l.drop a.length = l'.drop a'.length := by
  obtain ⟨new, rfl, rfl⟩ := h
  rw [List.drop_left, List.drop_left]

/-- Same session, connection, name and draws to come, and the same calls since
`b` and `b'`.  When the stack answers alike, what it delivers is the same too.
The counters may differ. -/
structure Link.InStep (b b' l l' : Link) : Prop where
  frame : l.frame = l'.frame
  gatt : l.gatt = l'.gatt
  deviceName : l.deviceName = l'.deviceName
  randomKeys : l.randomKeys = l'.randomKeys
  calls : SameAdded b.calls b'.calls l.calls l'.calls
  delivery : b.notifyResults = b'.notifyResults →
    l.notifyResults = l'.notifyResults ∧ SameAdded b.wire b'.wire l.wire l'.wire

section

variable {b b' l l' : Link}

/-- From here on the same additions are made. -/
theorem Link.InStep.rebase (h : Link.InStep b b' l l') : Link.InStep l l' l l' := by
  obtain ⟨hframe, hgatt, hname, hkeys, -, -⟩ := h
  exact ⟨hframe, hgatt, hname, hkeys, .refl _ _, fun hresults => ⟨hresults, .refl _ _⟩⟩

theorem Link.InStep.onDiag (h : Link.InStep b b' l l') (d d' : Diag) :
    Link.InStep b b' { l with diag := d } { l' with diag := d' } := by
  obtain ⟨hframe, hgatt, hname, hkeys, hcalls, hdelivery⟩ := h
  exact ⟨hframe, hgatt, hname, hkeys, hcalls, hdelivery⟩

theorem Link.InStep.setFrame (h : Link.InStep b b' l l') {f f' : Frame} (hf : f = f') :
    Link.InStep b b' { l with frame := f } { l' with frame := f' } := by
  obtain ⟨-, hgatt, hname, hkeys, hcalls, hdelivery⟩ := h
  exact ⟨hf, hgatt, hname, hkeys, hcalls, hdelivery⟩

theorem Link.InStep.setGatt (h : Link.InStep b b' l l') (d d' : Diag) {g g' : Gatt}
    (hg : g = g') :
    Link.InStep b b' { l with diag := d, gatt := g } { l' with diag := d', gatt := g' } := by
  obtain ⟨hframe, -, hname, hkeys, hcalls, hdelivery⟩ := h
  exact ⟨hframe, hg, hname, hkeys, hcalls, hdelivery⟩

theorem Link.InStep.setName (h : Link.InStep b b' l l') (name : List UInt8) :
    Link.InStep b b' { l with deviceName := name } { l' with deviceName := name } := by
  obtain ⟨hframe, hgatt, -, hkeys, hcalls, hdelivery⟩ := h
  exact ⟨hframe, hgatt, rfl, hkeys, hcalls, hdelivery⟩

theorem Link.InStep.onSubscribe (h : Link.InStep b b' l l') (attrHandle : UInt16)
    (curNotify : Bool) :
    Link.InStep b b' (nivonaGattOnSubscribe l attrHandle curNotify)
      (nivonaGattOnSubscribe l' attrHandle curNotify) := by
  simp only [nivonaGattOnSubscribe, h.gatt]
  refine iteInduction₂ (fun _ => h.setGatt _ _ rfl) fun _ => ?_
  exact iteInduction₂ (fun _ => h.setGatt _ _ rfl) fun _ => h.setGatt _ _ rfl

theorem Link.InStep.call (h : Link.InStep b b' l l') (call : Call) :
    Link.InStep b b' { l with calls := l.calls ++ [call] }
      { l' with calls := l'.calls ++ [call] } := by
  obtain ⟨hframe, hgatt, hname, hkeys, hcalls, hdelivery⟩ := h
  exact ⟨hframe, hgatt, hname, hkeys, hcalls.append _, hdelivery⟩

theorem Link.InStep.notify (h : Link.InStep b b' l l') (data : List UInt8) :
    Link.InStep b b' (nivonaGattNotify l data) (nivonaGattNotify l' data) := by
  have hlisten : l.listening = l'.listening := by
    rw [Link.listening, Link.listening, h.gatt]
  rw [nivonaGattNotify_spec, nivonaGattNotify_spec]
  refine ⟨h.frame, h.gatt, h.deviceName, h.randomKeys, h.calls.append _, ?_⟩
  intro hbase
  obtain ⟨hresults, hwire⟩ := h.delivery hbase
  have hposted : l.posted data = l'.posted data := by
    rw [Link.posted, Link.posted, hlisten, hresults, h.gatt]
  have hleft : l.answersLeft = l'.answersLeft := by
    rw [Link.answersLeft, Link.answersLeft, hlisten, hresults]
  refine ⟨hleft, ?_⟩
  dsimp only
  rw [hposted]
  exact hwire.append _

theorem Link.InStep.notifyAll (h : Link.InStep b b' l l') (chunks : List (List UInt8)) :
    Link.InStep b b' (chunks.foldl nivonaGattNotify l) (chunks.foldl nivonaGattNotify l') := by
  induction chunks generalizing l l' with
  | nil => exact h
  | cons chunk chunks ih => exact ih (h.notify chunk)

theorem Link.InStep.send (h : Link.InStep b b' l l') (cmd : Cmd) (payload : List UInt8)
    (kp enc : Bool) :
    Link.InStep b b' (nivonaFrameSend l cmd payload kp enc)
      (nivonaFrameSend l' cmd payload kp enc) := by
  have hchunks : frameSendChunks l cmd payload kp enc =
      frameSendChunks l' cmd payload kp enc := by
    rw [frameSendChunks, frameSendChunks, sendPrefix, sendPrefix, h.frame]
  rw [nivonaFrameSend, nivonaFrameSend, hchunks]
  exact h.notifyAll _

theorem Link.InStep.keyed (h : Link.InStep b b' l l') : Link.InStep b b' l.keyed l'.keyed := by
  obtain ⟨hframe, hgatt, hname, hkeys, hcalls, hdelivery⟩ := h
  refine ⟨?_, hgatt, hname, ?_, hcalls, hdelivery⟩
  · simp only [Link.keyed, nivonaFrameMarkHandshake, Link.drawKey, hframe, hkeys]
  · simp only [Link.keyed, nivonaFrameMarkHandshake, Link.drawKey, hkeys]

end

/-! ## Machines in step -/

/-- Related cores, and links that have done the same since `b` and `b'`. -/
structure Machine.InStep (R : Core → Core → Prop) (b b' : Link) (m m' : Machine) : Prop where
  core : R m.core m'.core
  link : Link.InStep b b' m.link m'.link

section

variable {R : Core → Core → Prop} {b b' : Link} {m m' : Machine}

theorem Machine.InStep.send (h : Machine.InStep R b b' m m') (cmd : Cmd)
    {payload payload' : List UInt8} (hpayload : payload = payload') :
    Machine.InStep R b b' (sendResponse m cmd payload) (sendResponse m' cmd payload') := by
  subst hpayload
  exact ⟨h.core, h.link.send _ _ _ _⟩

/-- Acknowledge after the same operation. -/
theorem Machine.InStep.ack (h : Machine.InStep R b b' m m') {c c' : Core} (hc : R c c') :
    Machine.InStep R b b' (sendAck { m with core := c }) (sendAck { m' with core := c' }) :=
  ⟨hc, h.link.send _ _ _ _⟩

theorem Machine.InStep.nack (h : Machine.InStep R b b' m m') {c c' : Core} (hc : R c c') :
    Machine.InStep R b b' (sendNack { m with core := c }) (sendNack { m' with core := c' }) :=
  ⟨hc, h.link.send _ _ _ _⟩

theorem Machine.InStep.onDiag (h : Machine.InStep R b b' m m') (f g : Diag → Diag) :
    Machine.InStep R b b' (m.onDiag f) (m'.onDiag g) :=
  ⟨h.core, h.link.onDiag _ _⟩

theorem Machine.InStep.handleHu (h : Machine.InStep R b b' m m') (payload : List UInt8) :
    Machine.InStep R b b' (handleHu m payload) (handleHu m' payload) := by
  have hkey : m.link.randomKeys 0 = m'.link.randomKeys 0 := by rw [h.link.randomKeys]
  by_cases hlen : payload.length < 6
  · rw [handleHu_cut hlen, handleHu_cut hlen]
    exact h.onDiag _ _
  · have hlen' : 6 ≤ payload.length := Nat.le_of_not_lt hlen
    rw [handleHu_whole hlen', handleHu_whole hlen', hkey]
    have hkeyed : Machine.InStep R b b'
        { m with link := { m.link.keyed with diag := m.link.diag.countHu payload } }
        { m' with link := { m'.link.keyed with diag := m'.link.diag.countHu payload } } :=
      ⟨h.core, h.link.keyed.onDiag _ _⟩
    exact (hkeyed.send _ rfl).onDiag _ _

theorem Machine.InStep.handleHe (hR : Indistinct R) (h : Machine.InStep R b b' m m')
    (payload : List UInt8) :
    Machine.InStep R b b' (handleHe m payload) (handleHe m' payload) := by
  have hmode : m.core.family.brewCommandMode = m'.core.family.brewCommandMode := by
    rw [(hR.alike h.core).family]
  have hstart := hR.request (.brewStart (payload.getD 3 0).toUInt16.toInt16 false) rfl h.core
  have hresult := ((hR.alike h.core).brewStart (payload.getD 3 0).toUInt16.toInt16 false).2
  simp only [Nivona.handleHe, hmode, hresult]
  refine iteInduction₂ (fun _ => h.nack h.core) fun _ => ?_
  refine iteInduction₂ (fun _ => h.nack h.core) fun _ => ?_
  exact iteInduction₂ (fun _ => h.ack hstart) fun _ => h.nack hstart

/-- A handler does the same on both machines. -/
theorem Machine.InStep.dispatchHandler (hR : Indistinct R) (h : Machine.InStep R b b' m m')
    (cmd : Cmd) (payload : List UInt8) :
    Machine.InStep R b b' (dispatchHandler m cmd payload)
      (dispatchHandler m' cmd payload) := by
  obtain ⟨hdevice, hstatus, -⟩ := hR.alike h.core
  have hrequest (op : Op) (hop : op.ofRequest = true) :
      R (coreStep m.core op) (coreStep m'.core op) := hR.request op hop h.core
  refine dispatchHandler_induction₂ (P := Machine.InStep R b b')
    (fun _ => h.handleHu payload) ?hx (h.send _ rfl) (h.send _ rfl) ?hl (h.send _ rfl)
    (h.send _ rfl) ?hr ?ha (h.send _ rfl) ?hw ?hb (h.handleHe hR payload)
    (h.ack (hrequest .brewCancel rfl)) (h.ack (hrequest .confirm rfl)) ?hd (h.ack h.core) ?un
  case hx =>
    have hreply : nivonaFsmPackStatus m.core.status = nivonaFsmPackStatus m'.core.status := by
      rw [hstatus]
    exact (h.send _ hreply).onDiag (fun d => { d with hxResp := d.hxResp + 1 })
      fun d => { d with hxResp := d.hxResp + 1 }
  case hl =>
    refine h.send _ ?_
    rw [h.link.deviceName]
  case hr =>
    refine h.send _ ?_
    rw [hdevice]
  case ha =>
    refine h.send _ ?_
    rw [hdevice]
  case hw =>
    simp only [handleHw]
    split
    · exact h.ack (hrequest (.setNum _ _) rfl)
    · exact h.ack h.core
  case hb =>
    simp only [handleHb]
    split
    · exact h.ack (hrequest (.setAlpha _ _) rfl)
    · exact h.ack h.core
  case hd =>
    simp only [handleHd]
    split
    · exact h.ack (hrequest (.eraseNum _) rfl)
    · exact h.ack h.core
  case un =>
    exact (h.onDiag (fun d => { d with unhandled := d.unhandled + 1 })
      fun d => { d with unhandled := d.unhandled + 1 }).ack h.core

theorem Machine.InStep.nivonaDispatch (hR : Indistinct R) (h : Machine.InStep R b b' m m')
    (cmd : Cmd) (payload : List UInt8) :
    Machine.InStep R b b' (nivonaDispatch m cmd payload) (nivonaDispatch m' cmd payload) := by
  have hcall : Machine.InStep R b b'
      { m with link := { m.link with calls := m.link.calls ++ [Call.dispatch cmd payload] } }
      { m' with link :=
          { m'.link with calls := m'.link.calls ++ [Call.dispatch cmd payload] } } :=
    ⟨h.core, h.link.call _⟩
  exact hcall.dispatchHandler hR cmd payload

/-! ## Receiving in step -/

theorem Machine.InStep.tryParse (hR : Indistinct R) (h : Machine.InStep R b b' m m') :
    Machine.InStep R b b' (tryParse m) (tryParse m') := by
  cases hopen : openFrame m.link.frame.handshakeDone m.link.frame.buf with
  | error e =>
      obtain ⟨d, hd⟩ := tryParse_of_error hopen
      rw [h.link.frame] at hopen
      obtain ⟨d', hd'⟩ := tryParse_of_error hopen
      rw [hd, hd']
      exact ⟨h.core, h.link.onDiag _ _⟩
  | ok o =>
      obtain ⟨d, hd⟩ := tryParse_of_ok hopen
      rw [h.link.frame] at hopen
      obtain ⟨d', hd'⟩ := tryParse_of_ok hopen
      have hdiag : Machine.InStep R b b' (m.withDiag d) (m'.withDiag d') :=
        ⟨h.core, h.link.onDiag _ _⟩
      rw [hd, hd', h.link.frame]
      exact iteInduction₂ (fun _ => hdiag) fun _ => hdiag.nivonaDispatch hR _ _

theorem Machine.InStep.setFrame (h : Machine.InStep R b b' m m') {f f' : Frame} (hf : f = f') :
    Machine.InStep R b b' (m.setFrame f) (m'.setFrame f') :=
  ⟨h.core, h.link.setFrame hf⟩

theorem Machine.InStep.pushByte (h : Machine.InStep R b b' m m') (x : UInt8)
    (hroom : m.link.frame.buf.length < MAX_FRAME_BYTES)
    (hroom' : m'.link.frame.buf.length < MAX_FRAME_BYTES) :
    Machine.InStep R b b' (pushByte m x hroom) (pushByte m' x hroom') := by
  refine h.setFrame ?_
  simp only [Frame.withBuf, h.link.frame]

theorem Machine.InStep.closeFrame (h : Machine.InStep R b b' m m') :
    Machine.InStep R b b' (closeFrame m) (closeFrame m') :=
  h.setFrame (by rw [h.link.frame])

theorem Machine.InStep.feedByte (hR : Indistinct R) (h : Machine.InStep R b b' m m')
    (x : UInt8) : Machine.InStep R b b' (feedByte m x) (feedByte m' x) := by
  have hframe := h.link.frame
  by_cases hidle : m.link.frame.inFrame = false
  · have hidle' : m'.link.frame.inFrame = false := by rwa [hframe] at hidle
    rw [Nivona.feedByte, Nivona.feedByte, if_pos hidle, if_pos hidle']
    exact iteInduction₂ (fun _ => h.setFrame (by rw [hframe])) fun _ => h
  · have hidle' : ¬m'.link.frame.inFrame = false := by rwa [hframe] at hidle
    by_cases hroom : m.link.frame.buf.length < MAX_FRAME_BYTES
    · have hroom' : m'.link.frame.buf.length < MAX_FRAME_BYTES := by rwa [hframe] at hroom
      have hpush := h.pushByte x hroom hroom'
      rw [Nivona.feedByte, Nivona.feedByte, if_neg hidle, if_neg hidle', dif_pos hroom,
        dif_pos hroom']
      dsimp only
      rw [hpush.link.frame]
      exact iteInduction₂ (fun _ => (hpush.tryParse hR).closeFrame) fun _ => hpush
    · have hroom' : ¬m'.link.frame.buf.length < MAX_FRAME_BYTES := by rwa [hframe] at hroom
      rw [Nivona.feedByte, Nivona.feedByte, if_neg hidle, if_neg hidle', dif_neg hroom,
        dif_neg hroom']
      exact h.closeFrame

theorem Machine.InStep.feed (hR : Indistinct R) (h : Machine.InStep R b b' m m')
    (data : List UInt8) :
    Machine.InStep R b b' (nivonaFrameFeed m data) (nivonaFrameFeed m' data) := by
  induction data generalizing m m' with
  | nil => exact h
  | cons x data ih => exact ih (h.feedByte hR x)

theorem Machine.InStep.onAd03Write (hR : Indistinct R) (h : Machine.InStep R b b' m m')
    (data : List UInt8) :
    Machine.InStep R b b' (onAd03Write m data) (onAd03Write m' data) :=
  (h.onDiag _ _).feed hR _

/-! ## Events in step -/

/-- What a peer causes: connections, subscriptions, writes and their end. -/
def Event.ofPeer : Event → Bool
  | .op _ => false
  | _ => true

/-- Anything but a restart, which ends every connection. -/
def Event.keepsRunning : Event → Bool
  | .op (.reboot _) => false
  | _ => true

/-- What a peer causes has the same effect on related machines. -/
theorem Machine.InStep.peerStep (hR : Indistinct R) (h : Machine.InStep R b b' m m')
    {e : Event} (he : e.ofPeer = true) :
    Machine.InStep R b b' (machineStep m e) (machineStep m' e) := by
  cases e with
  | connect connHandle =>
      refine ⟨h.core, h.link.setGatt _ _ ?_⟩
      rw [h.link.gatt]
  | subscribe attrHandle curNotify => exact ⟨h.core, h.link.onSubscribe attrHandle curNotify⟩
  | ad03Write data => exact h.onAd03Write hR data
  | disconnect =>
      refine ⟨h.core, (h.link.setGatt _ _ ?_).setFrame rfl⟩
      rw [h.link.gatt]
  | op o => exact absurd he Bool.false_ne_true

/-- So has everything else, on machines with the same core. -/
theorem Machine.InStep.step (h : Machine.InStep Eq b b' m m') {e : Event}
    (he : e.keepsRunning = true) :
    Machine.InStep Eq b b' (machineStep m e) (machineStep m' e) := by
  have hcore (c : Core) : Machine.InStep Eq b b' { m with core := c } { m' with core := c } :=
    ⟨rfl, h.link⟩
  have htask (r : Core × Bool) :
      Machine.InStep Eq b b' (m.afterTask r) (m'.afterTask r) :=
    iteInduction₂ (fun _ => ⟨rfl, h.link.send _ _ _ _⟩) fun _ => hcore r.1
  cases e with
  | op o =>
      simp only [machineStep]
      cases o with
      | reboot it => exact absurd he Bool.false_ne_true
      | brewTask i =>
          simp only [machineOp, h.core]
          exact htask _
      | cycleTask i =>
          simp only [machineOp, h.core]
          exact htask _
      | familyCli key =>
          simp only [machineOp, h.core]
          refine ⟨rfl, ?_⟩
          split
          · exact h.link
          · exact h.link.setName _
      | _ =>
          simp only [machineOp, h.core]
          exact hcore _
  | _ => exact h.peerStep indistinct_eq rfl

end

end Nivona
