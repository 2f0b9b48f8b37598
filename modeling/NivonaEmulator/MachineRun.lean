import NivonaEmulator.FrameFeed
import NivonaEmulator.System

/-!
# Runs of the whole machine

Connections, AD03 writes, steps of the tasks and commands of the operator act
on the core and the link together.  On the core alone such a run is a run of
operations.  The bytes a peer writes cause only six kinds of them, so whatever
these preserve is preserved by every stream of bytes, in any session.
-/

namespace Nivona

/-! ## Events -/

/-- What can happen to the machine. -/
inductive Event
  | connect (connHandle : UInt16)
  | subscribe (attrHandle : UInt16) (curNotify : Bool)
  | ad03Write (data : List UInt8)
  | disconnect
  | op (o : Op)

/-- Restart on the flash as it is, in what is left of the environment. -/
def Machine.restart (it : NvsIterator) (m : Machine) : Machine :=
  Machine.boot
    { iterator := it
      taskResults := m.core.taskResults
      notifyHandle := m.link.gatt.notifyHandle
      randomKeys := m.link.randomKeys
      notifyResults := m.link.notifyResults }
    m.core.device.nvs

/-- After the step of a task, with the status it pushes. -/
def Machine.afterTask (m : Machine) (r : Core × Bool) : Machine :=
  if r.2 then pushStatus { m with core := r.1 } else { m with core := r.1 }

/-- An operation of the core, with its effect on the link: a restart forgets the
session, tasks push the status, and `family` renames the device. -/
def machineOp (m : Machine) : Op → Machine
  | .reboot it => m.restart it
  | .brewTask i => m.afterTask (brewTask m.core i)
  | .cycleTask i => m.afterTask (cycleTask m.core i)
  | .familyCli key =>
      { core := cmdFamily m.core key
        link := match nivonaFamilyFind key with
          | none => m.link
          | some f =>
              { m.link with deviceName := (familyRow f).bleName.toUTF8.data.toList } }
  | o => { m with core := coreStep m.core o }

def machineStep (m : Machine) : Event → Machine
  | .connect connHandle => { m with link := nivonaGattOnConnect m.link connHandle }
  | .subscribe attrHandle curNotify =>
      { m with link := nivonaGattOnSubscribe m.link attrHandle curNotify }
  | .ad03Write data => onAd03Write m data
  | .disconnect => { m with link := nivonaGattOnDisconnect m.link }
  | .op o => machineOp m o

/-! ## Requests are operations -/

/-- The operations a request can cause. -/
def Op.ofRequest : Op → Bool
  | .setNum .. | .setAlpha .. | .eraseNum _ | .brewStart .. | .brewCancel | .confirm => true
  | _ => false

/-- The second core is the first after some operations of requests. -/
def ServesRequests (c c' : Core) : Prop :=
  ∃ ops : List Op, (∀ op ∈ ops, op.ofRequest = true) ∧ c' = Runs.run coreStep c ops

theorem ServesRequests.refl (c : Core) : ServesRequests c c :=
  ⟨[], by simp, rfl⟩

theorem ServesRequests.single (c : Core) (op : Op) (h : op.ofRequest = true) :
    ServesRequests c (coreStep c op) :=
  ⟨[op], by simpa using h, rfl⟩

theorem ServesRequests.trans {c₁ c₂ c₃ : Core} (h : ServesRequests c₁ c₂)
    (h' : ServesRequests c₂ c₃) : ServesRequests c₁ c₃ := by
  obtain ⟨ops, hops, rfl⟩ := h
  obtain ⟨ops', hops', rfl⟩ := h'
  refine ⟨ops ++ ops', ?_, (Runs.run_append _ _ _).symm⟩
  intro op hop
  rcases List.mem_append.mp hop with hop | hop
  · exact hops op hop
  · exact hops' op hop

theorem servesRequests_handleHe (m : Machine) (payload : List UInt8) :
    ServesRequests m.core (handleHe m payload).core := by
  simp only [handleHe]
  split
  · exact .refl _
  · split
    · exact .refl _
    · have hstart := ServesRequests.single m.core
        (.brewStart (payload.getD 3 0).toUInt16.toInt16 false) rfl
      split
      · exact hstart
      · exact hstart

/-- A handler causes at most one operation. -/
theorem servesRequests_dispatchHandler (m : Machine) (cmd : Cmd) (payload : List UInt8) :
    ServesRequests m.core (dispatchHandler m cmd payload).core := by
  have hread : ServesRequests m.core m.core := .refl _
  refine dispatchHandler_induction (P := fun m' => ServesRequests m.core m'.core)
    (fun _ => ?hu) (fun _ => hread) (fun _ => hread) (fun _ => hread) (fun _ => hread)
    (fun _ => hread) (fun _ => hread) (fun _ => hread) (fun _ => hread) (fun _ => hread)
    (fun _ => ?hw) (fun _ => ?hb) (fun _ => servesRequests_handleHe m payload)
    (fun _ => .single m.core .brewCancel rfl)
    (fun _ => .single m.core .confirm rfl) (fun _ => ?hd)
    (fun _ => hread) (fun _ => hread) hread
  case hu =>
    rw [handleHu_core]
    exact hread
  case hw =>
    simp only [handleHw]
    split
    · exact .single m.core (.setNum _ _) rfl
    · exact hread
  case hb =>
    simp only [handleHb]
    split
    · exact .single m.core (.setAlpha _ _) rfl
    · exact hread
  case hd =>
    simp only [handleHd]
    split
    · exact .single m.core (.eraseNum _) rfl
    · exact hread

theorem servesRequests_nivonaDispatch (m : Machine) (cmd : Cmd) (payload : List UInt8) :
    ServesRequests m.core (nivonaDispatch m cmd payload).core := by
  rw [nivonaDispatch]
  exact servesRequests_dispatchHandler
    { m with link := { m.link with calls := m.link.calls ++ [Call.dispatch cmd payload] } }
    cmd payload

theorem servesRequests_tryParse (m : Machine) : ServesRequests m.core (tryParse m).core := by
  obtain ⟨d, h | ⟨c, body, -, h⟩ | ⟨a, payload, -, -, h⟩⟩ := tryParse_cases m
  · rw [h]
    exact .refl _
  · rw [h]
    exact servesRequests_nivonaDispatch (m.withDiag d) _ _
  · rw [h]
    exact servesRequests_nivonaDispatch (m.withDiag d) _ _

theorem servesRequests_feedByte (m : Machine) (b : UInt8) :
    ServesRequests m.core (feedByte m b).core := by
  rcases feedByte_cases m b with ⟨-, hcore⟩ | ⟨hin, hroom, hc⟩
  · rw [hcore]
    exact .refl _
  · rw [feedByte_ends hin hroom hc, closeFrame_core]
    exact servesRequests_tryParse _

/-- So does every stream, however it is cut and whatever the session. -/
theorem servesRequests_feed (data : List UInt8) (m : Machine) :
    ServesRequests m.core (nivonaFrameFeed m data).core := by
  induction data generalizing m with
  | nil => exact .refl _
  | cons b bs ih => exact (servesRequests_feedByte m b).trans (ih (feedByte m b))

/-! ## The core of a run -/

theorem machineOp_core (m : Machine) (o : Op) : (machineOp m o).core = coreStep m.core o := by
  cases o with
  | brewTask i =>
      simp only [machineOp, Machine.afterTask]
      split <;> rfl
  | cycleTask i =>
      simp only [machineOp, Machine.afterTask]
      split <;> rfl
  | _ => rfl

/-- The guard of an operation, on the events that are operations. -/
def EventGuard (guard : Core → Op → Prop) (m : Machine) : Event → Prop
  | .op o => guard m.core o
  | _ => True

/-- A step of the machine is a run of the core, and only the operations of the
tasks and the operator can break a guard that every request meets. -/
theorem simulates_core {guard : Core → Op → Prop}
    (hrequest : ∀ c op, op.ofRequest = true → guard c op) :
    Runs.Simulates Machine.core machineStep (EventGuard guard) coreStep guard := by
  intro m e hguard
  cases e with
  | connect connHandle => exact ⟨[], trivial, rfl⟩
  | subscribe attrHandle curNotify => exact ⟨[], trivial, rfl⟩
  | disconnect => exact ⟨[], trivial, rfl⟩
  | ad03Write data =>
      obtain ⟨ops, hops, hcore⟩ := servesRequests_feed (data.take 256)
        (m.onDiag fun d =>
          { d with
            ad03Writes := d.ad03Writes + 1
            lastAd03Len := UInt32.ofNat (data.take 256).length
            lastAd03 := (data.take 256).take 64 })
      exact ⟨ops, Runs.guarded_of_forall _ fun op hop c => hrequest c op (hops op hop), hcore⟩
  | op o => exact ⟨[o], ⟨hguard, trivial⟩, machineOp_core m o⟩

end Nivona
