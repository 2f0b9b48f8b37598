import NivonaEmulator.InStep
import NivonaEmulator.Lib.Lockstep
import NivonaEmulator.Subscription

/-!
# Successive peers

A disconnect leaves nothing of the session behind: the next peer sees what the
machine state, the coming key draws and its own requests determine.
-/

namespace Nivona

/-! ## The device name -/

/-- The device carries the name of its family. -/
def Named (m : Machine) : Prop :=
  m.link.deviceName = m.core.family.bleName.toUTF8.data.toList

/-- Anything but a choice of the family on the touch screen, which leaves the
device name as it is. -/
def Event.keepsName : Event → Bool
  | .op (.familyUi _) => false
  | _ => true

theorem family_of_servesRequests {c c' : Core} (h : ServesRequests c c') :
    c'.device.family = c.device.family := by
  obtain ⟨ops, hops, rfl⟩ := h
  have hguarded : Runs.Guarded coreStep (fun _ op => op.keepsFamily = true) c ops := by
    refine Runs.guarded_of_forall c ?_
    intro op hop _
    have hrequest := hops op hop
    cases op with
    | reboot it => exact absurd hrequest Bool.false_ne_true
    | familyCli key => exact absurd hrequest Bool.false_ne_true
    | familyUi key => exact absurd hrequest Bool.false_ne_true
    | _ => rfl
  refine hguarded.invariant (P := fun c' : Core => c'.device.family = c.device.family) ?_ rfl
  intro c' op hc' hop
  rw [coreStep_family c' hop, hc']

theorem named_machineStep {m : Machine} (h : Named m) {e : Event} (he : e.keepsName = true) :
    Named (machineStep m e) := by
  have hsame {m' : Machine} (hname : m'.link.deviceName = m.link.deviceName)
      (hfamily : m'.core.device.family = m.core.device.family) : Named m' := by
    rw [Named, hname, Core.family, nivonaFamilyCurrent, hfamily]
    exact h
  cases e with
  | connect connHandle => exact h
  | subscribe attrHandle curNotify =>
      refine hsame ?_ rfl
      simp only [machineStep, nivonaGattOnSubscribe]
      split
      · rfl
      · split <;> rfl
  | ad03Write data =>
      exact hsame (replies_onAd03Write m data).deviceName
        (family_of_servesRequests (servesRequests_feed _ _))
  | disconnect => exact h
  | op o =>
      have htask (r : Core × Bool) : (m.afterTask r).link.deviceName = m.link.deviceName := by
        rw [Machine.afterTask]
        split
        · exact (repliesRule.send _ _ _ _ _).deviceName
        · rfl
      have hcore := machineOp_core m o
      cases o with
      | reboot it => rfl
      | familyUi key => exact absurd he Bool.false_ne_true
      | familyCli key =>
          rw [Named, machineStep]
          simp only [machineOp, cmdFamily]
          cases hf : nivonaFamilyFind key with
          | none => exact h
          | some f =>
              simp only [nivonaFsmResetToReady, Core.onDevice, nivonaFamilySet, hf, Core.family,
                nivonaFamilyCurrent]
      | brewTask i => exact hsame (htask _) (by rw [machineStep, hcore, coreStep_family _ rfl])
      | cycleTask i => exact hsame (htask _) (by rw [machineStep, hcore, coreStep_family _ rfl])
      | _ => exact hsame rfl (by rw [machineStep, hcore, coreStep_family _ rfl])

theorem named_run (env : Environment) (nvs : Nvs) {history : List Event}
    (h : ∀ e ∈ history, e.keepsName = true) :
    Named (Runs.run machineStep (Machine.boot env nvs) history) := by
  have hguarded : Runs.Guarded machineStep (fun _ e => e.keepsName = true)
      (Machine.boot env nvs) history :=
    Runs.guarded_of_forall _ fun e he _ => h e he
  have hboot : Named (Machine.boot env nvs) := rfl
  exact hguarded.invariant (P := Named) (fun m e hm he => named_machineStep hm he) hboot

/-! ## What is seen of an event -/

/-- The commands that are dispatched, the replies, what of them is handed to
the BLE stack and what the stack delivers, and the handshake state. -/
structure Seen where
  dispatched : List (Cmd × List UInt8)
  replies : List (List UInt8)
  handed : List Notification
  handshakeDone : Bool
  keyPrefix : KeyPrefix
  deriving DecidableEq, Repr

/-- What one event shows. -/
def machineSeen (m : Machine) (e : Event) : Seen :=
  let l := (machineStep m e).link
  let calls := l.calls.drop m.link.calls.length
  { dispatched := dispatches calls
    replies := notifies calls
    handed := if l.listening then
        (notifies calls).map (Notification.mk l.gatt.connHandle l.gatt.notifyHandle)
      else []
    handshakeDone := l.frame.handshakeDone
    keyPrefix := l.frame.keyPrefix }

/-- What one event delivers. -/
def machineDelivered (m : Machine) (e : Event) : List Notification :=
  (machineStep m e).link.wire.drop m.link.wire.length

section

variable {R : Core → Core → Prop} {m m' : Machine} {e : Event}

/-- Machines in step show the same. -/
theorem machineSeen_eq
    (h : Machine.InStep R m.link m'.link (machineStep m e) (machineStep m' e)) :
    machineSeen m e = machineSeen m' e := by
  have hlisten : (machineStep m e).link.listening = (machineStep m' e).link.listening := by
    rw [Link.listening, Link.listening, h.link.gatt]
  simp only [machineSeen, h.link.calls.drop_eq, hlisten, h.link.gatt, h.link.frame]

theorem machineDelivered_eq
    (h : Machine.InStep R m.link m'.link (machineStep m e) (machineStep m' e))
    (hresults : m.link.notifyResults = m'.link.notifyResults) :
    machineDelivered m e = machineDelivered m' e :=
  (h.link.delivery hresults).2.drop_eq

end

/-- What a run shows, event by event. -/
def seenOf (m : Machine) (session : List Event) : List Seen :=
  Lockstep.observe machineStep machineSeen m session

def deliveredTo (m : Machine) (session : List Event) : List (List Notification) :=
  Lockstep.observe machineStep machineDelivered m session

/-- Two machines in step show the same in a session of allowed events. -/
theorem Machine.InStep.session {R : Core → Core → Prop} (allowed : Event → Prop)
    (hstep : ∀ m m' e, allowed e → Machine.InStep R m.link m'.link m m' →
      Machine.InStep R m.link m'.link (machineStep m e) (machineStep m' e))
    {m m' : Machine} (h : Machine.InStep R m.link m'.link m m') {session : List Event}
    (hsession : ∀ e ∈ session, allowed e) :
    seenOf m session = seenOf m' session ∧
      (m.link.notifyResults = m'.link.notifyResults →
        deliveredTo m session = deliveredTo m' session) := by
  constructor
  · refine Lockstep.observe_eq
      (R := fun m m' => Machine.InStep R m.link m'.link m m') ?_ h hsession
    intro m m' e he hm
    have hnext := hstep m m' e he hm
    exact ⟨⟨hnext.core, hnext.link.rebase⟩, machineSeen_eq hnext⟩
  · intro hresults
    refine Lockstep.observe_eq
      (R := fun m m' => Machine.InStep R m.link m'.link m m' ∧
        m.link.notifyResults = m'.link.notifyResults) ?_ ⟨h, hresults⟩ hsession
    rintro m m' e he ⟨hm, hres⟩
    have hnext := hstep m m' e he hm
    exact ⟨⟨⟨hnext.core, hnext.link.rebase⟩, (hnext.link.delivery hres).1⟩,
      machineDelivered_eq hnext hres⟩

/-! ## Isolation -/

/-- After a disconnect only the machine, its handle and name, and the coming
draws are left. -/
theorem inStep_of_disconnect {R : Core → Core → Prop} {m m' : Machine}
    (hcore : R (machineStep m .disconnect).core (machineStep m' .disconnect).core)
    (hhandle : m.link.gatt.notifyHandle = m'.link.gatt.notifyHandle)
    (hname : m.link.deviceName = m'.link.deviceName)
    (hkeys : m.link.randomKeys = m'.link.randomKeys) :
    Machine.InStep R (machineStep m .disconnect).link (machineStep m' .disconnect).link
      (machineStep m .disconnect) (machineStep m' .disconnect) := by
  refine ⟨hcore, rfl, ?_, hname, hkeys, .refl _ _, fun hresults => ⟨hresults, .refl _ _⟩⟩
  simp only [machineStep, nivonaGattOnDisconnect, nivonaFrameReset, hhandle]

/-- After histories that end in a disconnect and leave machines which requests
cannot tell apart, the next peer sees the same dispatched commands, replies and
handshake states, and gets the same notifications when the stack answers alike.
On equal machines this includes steps of the tasks and commands of the operator.
And nothing reaches a peer that has not subscribed since its own connect, with every
event and every call of `nivona_gatt_notify` taken whole: a call that has copied the
handles of one peer may still hand over to the next. -/
theorem peers_isolated (env env' : Environment) (nvs nvs' : Nvs) (before before' : List Event)
    (hhandle : env.notifyHandle = env'.notifyHandle)
    (hname : ∀ e ∈ before, e.keepsName = true) (hname' : ∀ e ∈ before', e.keepsName = true) :
    let m := Runs.run machineStep (Machine.boot env nvs) (before ++ [.disconnect])
    let m' := Runs.run machineStep (Machine.boot env' nvs') (before' ++ [.disconnect])
    let SameSession (session : List Event) : Prop :=
      seenOf m session = seenOf m' session ∧
        (m.link.notifyResults = m'.link.notifyResults →
          deliveredTo m session = deliveredTo m' session)
    (m.link.randomKeys = m'.link.randomKeys → ∀ (connHandle : UInt16) (session : List Event),
      (m.core.Alike m'.core → (∀ e ∈ session, e.ofPeer = true) →
        SameSession (.connect connHandle :: session)) ∧
      (m.core = m'.core → (∀ e ∈ session, e.keepsRunning = true) →
        SameSession (.connect connHandle :: session))) ∧
    ∀ (history : List Event) (e : Event),
      ∀ n ∈ machineDelivered (Runs.run machineStep (Machine.boot env nvs) history) e,
        ∃ earlier since, history = earlier ++ .connect n.connHandle :: since ∧
          (∀ x ∈ since, x.keepsConnection = true) ∧
          .subscribe env.notifyHandle true ∈ since := by
  intro m m' SameSession
  constructor
  · intro hkeys connHandle session
    have hm : m = machineStep (Runs.run machineStep (Machine.boot env nvs) before) .disconnect :=
      Runs.run_append _ _ _
    have hm' : m' =
        machineStep (Runs.run machineStep (Machine.boot env' nvs') before') .disconnect :=
      Runs.run_append _ _ _
    have hinStep {R : Core → Core → Prop} (hcore : R m.core m'.core)
        (hfamily : m.core.family = m'.core.family) :
        Machine.InStep R m.link m'.link m m' := by
      rw [hm, hm'] at hcore hkeys hfamily ⊢
      refine inStep_of_disconnect hcore ?_ ?_ hkeys
      · rw [notifyHandle_run, notifyHandle_run, hhandle]
      · have hnamed : Named _ := named_run env nvs hname
        have hnamed' : Named _ := named_run env' nvs' hname'
        rw [Named] at hnamed hnamed'
        rw [hnamed, hnamed']
        exact congrArg (fun f : Family => f.bleName.toUTF8.data.toList) hfamily
    constructor
    · intro halike hsession
      refine (hinStep halike halike.family).session (fun e => e.ofPeer = true) ?_ ?_
      · exact fun m m' e he h => h.peerStep indistinct_alike he
      · exact List.forall_mem_cons.mpr ⟨rfl, hsession⟩
    · intro heq hsession
      refine (hinStep (R := Eq) heq (by rw [heq])).session (fun e => e.keepsRunning = true) ?_ ?_
      · exact fun m m' e he h => h.step he
      · exact List.forall_mem_cons.mpr ⟨rfl, hsession⟩
  · intro history e n hn
    exact notified_since_subscribed env nvs history e hn

/-- A peer that subscribes and drops out inside a frame, and one that leaves at
once, are the same to a peer that shakes hands. -/
theorem peers_isolated_halfFrame :
    let m := Runs.run machineStep Machine.factoryFresh
      ([.connect 7, .subscribe 1 true, .ad03Write [0x53, 0x48, 0x55]] ++ [.disconnect])
    let m' := Runs.run machineStep Machine.factoryFresh ([.connect 8] ++ [.disconnect])
    let session : List Event := [.connect 9, .subscribe 1 true,
      .ad03Write (Client.buildHuFrame [0xB3, 0x89, 0x00, 0x48])]
    seenOf m session = seenOf m' session ∧ deliveredTo m session = deliveredTo m' session := by
  intro m m' session
  have hisolated := peers_isolated Environment.benign Environment.benign Nvs.empty Nvs.empty
    [.connect 7, .subscribe 1 true, .ad03Write [0x53, 0x48, 0x55]] [.connect 8] rfl
    (by simp [Event.keepsName]) (by simp [Event.keepsName])
  have hcore : m.core = m'.core := rfl
  have halike : m.core.Alike m'.core := by
    rw [hcore]
    exact ⟨rfl, rfl, rfl, rfl, rfl, rfl, rfl⟩
  obtain ⟨hseen, hdelivered⟩ := (hisolated.1 rfl 9 [.subscribe 1 true,
    .ad03Write (Client.buildHuFrame [0xB3, 0x89, 0x00, 0x48])]).1 halike (by simp [Event.ofPeer])
  exact ⟨hseen, hdelivered rfl⟩

end Nivona
