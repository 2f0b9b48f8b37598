import Mathlib.Data.List.Induction
import NivonaEmulator.LinkRule
import NivonaEmulator.MachineRun

/-!
# Notifications and subscriptions

Replies and status pushes go to the connected peer, and only while it listens.
A connection begins without a subscription, so what reaches a peer comes after
a subscription of its own.
-/

namespace Nivona

/-! ## Replies -/

/-- What handlers and tasks do to a link: connection and name stay as they are,
and notifications go to the connected peer while it listens. -/
structure Link.Replies (l l' : Link) : Prop where
  gatt : l'.gatt = l.gatt
  deviceName : l'.deviceName = l.deviceName
  wire : ∃ new, l'.wire = l.wire ++ new ∧
    ∀ n ∈ new, l.listening = true ∧ n.connHandle = l.gatt.connHandle

/-- Session, counters and record of calls may change without a reply. -/
theorem Link.Replies.of_eq {l l' : Link} (hgatt : l'.gatt = l.gatt)
    (hname : l'.deviceName = l.deviceName) (hwire : l'.wire = l.wire) : l.Replies l' :=
  ⟨hgatt, hname, [], by rw [hwire, List.append_nil], by simp⟩

theorem Link.Replies.onDiag (l : Link) (d : Diag) : l.Replies { l with diag := d } :=
  .of_eq rfl rfl rfl

theorem Link.Replies.trans {l₁ l₂ l₃ : Link} (h₁ : l₁.Replies l₂) (h₂ : l₂.Replies l₃) :
    l₁.Replies l₃ := by
  obtain ⟨hgatt₁, hname₁, new₁, hwire₁, hnew₁⟩ := h₁
  obtain ⟨hgatt₂, hname₂, new₂, hwire₂, hnew₂⟩ := h₂
  have hlisten : l₂.listening = l₁.listening := by
    rw [Link.listening, Link.listening, hgatt₁]
  refine ⟨hgatt₂.trans hgatt₁, hname₂.trans hname₁, new₁ ++ new₂, ?_, ?_⟩
  · rw [hwire₂, hwire₁, List.append_assoc]
  · intro n hn
    rcases List.mem_append.mp hn with hn | hn
    · exact hnew₁ n hn
    · rw [← hlisten, ← hgatt₁]
      exact hnew₂ n hn

theorem replies_nivonaGattNotify (l : Link) (data : List UInt8) :
    l.Replies (nivonaGattNotify l data) := by
  rw [nivonaGattNotify_spec]
  refine ⟨rfl, rfl, l.posted data, rfl, ?_⟩
  intro n hn
  rw [Link.posted] at hn
  split at hn
  · rename_i hsent
    obtain rfl := List.mem_singleton.mp hn
    exact ⟨hsent.1, rfl⟩
  · exact absurd hn List.not_mem_nil

/-- Replying is kept by a whole write. -/
theorem repliesRule : LinkRule Link.Replies where
  trans := Link.Replies.trans
  quiet h := .of_eq h.gatt h.deviceName h.wire
  notify := replies_nivonaGattNotify

theorem replies_onAd03Write (m : Machine) (data : List UInt8) :
    m.link.Replies (onAd03Write m data).link := by
  have hbegin : m.link.Replies (beginWrite m data).link := .onDiag m.link _
  exact hbegin.trans (repliesRule.feed (beginWrite m data) (data.take 256))

/-! ## Events -/

/-- An operation other than a restart. -/
def Op.keepsLink : Op → Bool
  | .reboot _ => false
  | _ => true

/-- Operations leave the connection alone; tasks push the status on it. -/
theorem machineOp_wire (m : Machine) {o : Op} (ho : o.keepsLink = true) :
    (machineOp m o).link.gatt = m.link.gatt ∧
      ∃ new, (machineOp m o).link.wire = m.link.wire ++ new ∧
        ∀ n ∈ new, m.link.listening = true ∧ n.connHandle = m.link.gatt.connHandle := by
  have htask (r : Core × Bool) : m.link.Replies (m.afterTask r).link := by
    rw [Machine.afterTask]
    split
    · exact repliesRule.send _ _ _ _ _
    · exact .onDiag m.link m.link.diag
  have hnone : ∃ new : List Notification, m.link.wire = m.link.wire ++ new ∧
      ∀ n ∈ new, m.link.listening = true ∧ n.connHandle = m.link.gatt.connHandle :=
    ⟨[], by simp, by simp⟩
  cases o with
  | reboot it => exact absurd ho Bool.false_ne_true
  | brewTask i => exact ⟨(htask _).gatt, (htask _).wire⟩
  | cycleTask i => exact ⟨(htask _).gatt, (htask _).wire⟩
  | familyCli key =>
      simp only [machineOp]
      split
      · exact ⟨rfl, hnone⟩
      · exact ⟨rfl, hnone⟩
  | _ => exact ⟨rfl, hnone⟩

/-- Whatever happens, new notifications go to the connected peer, which listens. -/
theorem wire_machineStep (m : Machine) (e : Event) :
    ∀ n ∈ (machineStep m e).link.wire.drop m.link.wire.length,
      m.link.listening = true ∧ n.connHandle = m.link.gatt.connHandle := by
  have hadded {l' : Link} (h : ∃ new, l'.wire = m.link.wire ++ new ∧
      ∀ n ∈ new, m.link.listening = true ∧ n.connHandle = m.link.gatt.connHandle) :
      ∀ n ∈ l'.wire.drop m.link.wire.length,
        m.link.listening = true ∧ n.connHandle = m.link.gatt.connHandle := by
    obtain ⟨new, hwire, hnew⟩ := h
    rwa [hwire, List.drop_left]
  have hquiet {l' : Link} (h : l'.wire = m.link.wire) :
      ∀ n ∈ l'.wire.drop m.link.wire.length,
        m.link.listening = true ∧ n.connHandle = m.link.gatt.connHandle := by
    rw [h, List.drop_length]
    exact fun n hn => absurd hn List.not_mem_nil
  cases e with
  | connect connHandle => exact hquiet rfl
  | subscribe attrHandle curNotify =>
      apply hquiet
      simp only [machineStep, nivonaGattOnSubscribe]
      split
      · rfl
      · split <;> rfl
  | ad03Write data => exact hadded (replies_onAd03Write m data).wire
  | disconnect => exact hquiet rfl
  | op o =>
      by_cases ho : o.keepsLink = true
      · exact hadded (machineOp_wire m ho).2
      · cases o with
        | reboot it =>
            intro n hn
            exact absurd (List.mem_of_mem_drop hn) List.not_mem_nil
        | _ => exact absurd rfl ho

/-! ## The peer of a connection -/

/-- Events that neither begin nor end a connection. -/
def Event.keepsConnection : Event → Bool
  | .connect _ | .disconnect | .op (.reboot _) => false
  | _ => true

/-- A peer is connected since its connect event, and listens only when it has
subscribed since. -/
def Attached (notifyHandle : UInt16) (history : List Event) (g : Gatt) : Prop :=
  g.connHandle ≠ BLE_HS_CONN_HANDLE_NONE →
    ∃ before since, history = before ++ .connect g.connHandle :: since ∧
      (∀ e ∈ since, e.keepsConnection = true) ∧
      (g.notifySubscribed = true → .subscribe notifyHandle true ∈ since)

/-- An event that leaves the connection alone. -/
theorem Attached.snoc {notifyHandle : UInt16} {history : List Event} {g : Gatt}
    (h : Attached notifyHandle history g) {e : Event} (he : e.keepsConnection = true) :
    Attached notifyHandle (history ++ [e]) g := by
  intro hconn
  obtain ⟨before, since, rfl, hsince, hsub⟩ := h hconn
  refine ⟨before, since ++ [e], by simp, ?_, ?_⟩
  · intro x hx
    rcases List.mem_append.mp hx with hx | hx
    · exact hsince x hx
    · rwa [List.mem_singleton.mp hx]
  · intro hs
    exact List.mem_append_left _ (hsub hs)

/-- The handle of the notifications is fixed when the service is registered. -/
theorem notifyHandle_machineStep (m : Machine) (e : Event) :
    (machineStep m e).link.gatt.notifyHandle = m.link.gatt.notifyHandle := by
  cases e with
  | connect connHandle => rfl
  | subscribe attrHandle curNotify =>
      simp only [machineStep, nivonaGattOnSubscribe]
      split
      · rfl
      · split <;> rfl
  | ad03Write data =>
      have hgatt := (replies_onAd03Write m data).gatt
      rw [machineStep, hgatt]
  | disconnect => rfl
  | op o =>
      by_cases ho : o.keepsLink = true
      · rw [machineStep, (machineOp_wire m ho).1]
      · cases o with
        | reboot it => rfl
        | _ => exact absurd rfl ho

theorem attached_machineStep {m : Machine} {history : List Event}
    (h : Attached m.link.gatt.notifyHandle history m.link.gatt) (e : Event) :
    Attached m.link.gatt.notifyHandle (history ++ [e]) (machineStep m e).link.gatt := by
  cases e with
  | connect connHandle =>
      intro _
      exact ⟨history, [], rfl, by simp, fun hs => absurd hs Bool.false_ne_true⟩
  | subscribe attrHandle curNotify =>
      have hkeep := h.snoc (e := .subscribe attrHandle curNotify) rfl
      simp only [machineStep, nivonaGattOnSubscribe]
      split
      · exact hkeep
      · split
        · rename_i hattr
          intro hconn
          obtain ⟨before, since, rfl, hsince, -⟩ := h hconn
          refine ⟨before, since ++ [.subscribe attrHandle curNotify], by simp, ?_, ?_⟩
          · intro x hx
            rcases List.mem_append.mp hx with hx | hx
            · exact hsince x hx
            · rw [List.mem_singleton.mp hx]
              rfl
          · intro hs
            obtain rfl : curNotify = true := hs
            rw [hattr]
            exact List.mem_append_right _ (List.mem_singleton.mpr rfl)
        · exact hkeep
  | ad03Write data =>
      have hgatt := (replies_onAd03Write m data).gatt
      rw [machineStep, hgatt]
      exact h.snoc rfl
  | disconnect => exact fun hconn => absurd rfl hconn
  | op o =>
      by_cases ho : o.keepsLink = true
      · rw [machineStep, (machineOp_wire m ho).1]
        refine h.snoc ?_
        cases o with
        | reboot it => exact ho
        | _ => rfl
      · cases o with
        | reboot it => exact fun hconn => absurd rfl hconn
        | _ => exact absurd rfl ho

section

variable (env : Environment) (nvs : Nvs) (history : List Event)

theorem notifyHandle_run :
    (Runs.run machineStep (Machine.boot env nvs) history).link.gatt.notifyHandle =
      env.notifyHandle := by
  refine Runs.invariant (P := fun m : Machine => m.link.gatt.notifyHandle = env.notifyHandle)
    ?_ rfl history
  intro m e hm
  rw [notifyHandle_machineStep, hm]

/-- In every state reached, a listening peer has subscribed since its connect. -/
theorem attached_run :
    Attached env.notifyHandle history
      (Runs.run machineStep (Machine.boot env nvs) history).link.gatt := by
  induction history using List.reverseRecOn with
  | nil => exact fun hconn => absurd rfl hconn
  | append_singleton history e ih =>
      have hbefore : Attached
          (Runs.run machineStep (Machine.boot env nvs) history).link.gatt.notifyHandle history
          (Runs.run machineStep (Machine.boot env nvs) history).link.gatt := by
        rw [notifyHandle_run]
        exact ih
      have hstep := attached_machineStep hbefore e
      rw [notifyHandle_run] at hstep
      rw [Runs.run_append]
      exact hstep

/-- What reaches a peer comes after its connect and a subscription of its own,
with no other connect, disconnect or restart in between. -/
theorem notified_since_subscribed (e : Event) {n : Notification}
    (hn : n ∈ (machineStep (Runs.run machineStep (Machine.boot env nvs) history) e).link.wire.drop
      (Runs.run machineStep (Machine.boot env nvs) history).link.wire.length) :
    ∃ before since, history = before ++ .connect n.connHandle :: since ∧
      (∀ x ∈ since, x.keepsConnection = true) ∧ .subscribe env.notifyHandle true ∈ since := by
  obtain ⟨hlisten, hconn⟩ := wire_machineStep _ e n hn
  simp only [Link.listening, Bool.and_eq_true, bne_iff_ne] at hlisten
  obtain ⟨before, since, hhistory, hsince, hsub⟩ := attached_run env nvs history hlisten.1.2
  rw [hconn]
  exact ⟨before, since, hhistory, hsince, hsub hlisten.1.1⟩

end

end Nivona
