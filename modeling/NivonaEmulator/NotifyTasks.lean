import NivonaEmulator.Lib.Handles
import NivonaEmulator.Lib.Runs
import NivonaEmulator.Link

/-!
# Notifications and the connection they are meant for

`nivona_gatt_notify` runs on any task.  It copies the connection handle and the
subscription under the spinlock, and hands the notification to the BLE stack after
it has left the critical section.  The host task meanwhile takes connections up and
down, and the stack gives handles out again.  The copy is never torn: it is meant for
a peer that has subscribed.  The notification reaches that peer as long as the
connection has not ended in between.
-/

namespace Nivona

/-- A connection handle in a variable of the program, with the number of the connection
it was given out for.  The program itself knows the handle alone. -/
structure PeerHandle where
  handle : UInt16
  peer : ℕ
  deriving DecidableEq, Repr

/-- Where the host task stands: the stack has changed its tables and is about to call
`gap_event`. -/
inductive HostPoint
  | idle
  | connecting (p : PeerHandle)
  | disconnecting
  | subscribing (peer : ℕ) (attrHandle : UInt16) (curNotify : Bool)
  deriving DecidableEq, Repr

/-- What `nivona_gatt_notify` has copied, and whether its peer had subscribed by then. -/
structure NotifySnapshot where
  conn : PeerHandle
  notifyHandle : UInt16
  data : List UInt8
  listened : Bool
  deriving DecidableEq, Repr

/-- A notification handed to the stack, the connection it met there, and whether the
connection it was meant for had ended by then. -/
structure HandedNotification where
  copied : NotifySnapshot
  met : Option ℕ
  ended : Bool
  deriving DecidableEq, Repr

/-- The connections of the stack, the variables of the module, and the tasks. -/
structure NotifyServer (ι : Type*) where
  connections : Handles.Table UInt16 ℕ
  /-- handle of the open connection; `CONFIG_BT_NIMBLE_MAX_CONNECTIONS` is 1 -/
  link : Option UInt16
  /-- connections so far -/
  peers : ℕ
  /-- connections from which a subscription of AD02 has come -/
  subscribers : List ℕ
  host : HostPoint
  /-- `s_conn_handle`; `none` is `BLE_HS_CONN_HANDLE_NONE` -/
  conn : Option PeerHandle
  notifyHandle : UInt16
  notifySubscribed : Bool
  point : ι → Option NotifySnapshot
  handed : List HandedNotification

inductive NotifyStep (ι : Type*)
  /-- the stack changes its tables -/
  | connect (handle : UInt16)
  | disconnect
  | subscribe (attrHandle : UInt16) (curNotify : Bool)
  /-- a subscription ends with its connection, before `gap_event` hears of the disconnect -/
  | terminate (attrHandle : UInt16)
  /-- the host task is in `gap_event` -/
  | gapEvent
  | copy (i : ι) (data : List UInt8)
  | hand (i : ι)

section

variable {ι : Type*} [DecidableEq ι]

/-- The sections of `nivona_gatt_on_connect`, `nivona_gatt_on_disconnect` and
`nivona_gatt_on_subscribe`. -/
def NotifyServer.gapEvent (s : NotifyServer ι) : NotifyServer ι :=
  match s.host with
  | .idle => s
  | .connecting p => { s with host := .idle, conn := some p, notifySubscribed := false }
  | .disconnecting => { s with host := .idle, conn := none, notifySubscribed := false }
  | .subscribing _ attrHandle curNotify =>
      if s.notifyHandle = 0 then { s with host := .idle }
      else if attrHandle = s.notifyHandle then
        { s with host := .idle, notifySubscribed := curNotify }
      else { s with host := .idle }

/-- A step that its task or the stack does not allow does nothing: the stack handles one
event after another, and takes a connection only when there is none. -/
def notifyStep (s : NotifyServer ι) : NotifyStep ι → NotifyServer ι
  | .connect handle =>
      if s.host = .idle ∧ handle ≠ BLE_HS_CONN_HANDLE_NONE ∧ s.link = none then
        { s with
          connections := s.connections.open handle s.peers
          link := some handle
          peers := s.peers + 1
          host := .connecting ⟨handle, s.peers⟩ }
      else s
  | .disconnect =>
      match s.host, s.link with
      | .idle, some handle =>
          { s with
            connections := s.connections.close handle
            link := none
            host := .disconnecting }
      | _, _ => s
  | .subscribe attrHandle curNotify =>
      match s.host, s.link.bind s.connections.owner with
      | .idle, some peer =>
          { s with
            host := .subscribing peer attrHandle curNotify
            subscribers :=
              if attrHandle = s.notifyHandle ∧ curNotify = true then peer :: s.subscribers
              else s.subscribers }
      | _, _ => s
  | .terminate attrHandle =>
      if s.host = .disconnecting ∧ s.notifyHandle ≠ 0 ∧ attrHandle = s.notifyHandle then
        { s with notifySubscribed := false }
      else s
  | .gapEvent => s.gapEvent
  | .copy i data =>
      match s.point i, s.conn with
      | none, some p =>
          if s.notifySubscribed = true ∧ s.notifyHandle ≠ 0 then
            { s with
              point := Function.update s.point i
                (some ⟨p, s.notifyHandle, data, decide (p.peer ∈ s.subscribers)⟩) }
          else s
      | _, _ => s
  | .hand i =>
      match s.point i with
      | none => s
      | some r =>
          { s with
            point := Function.update s.point i none
            handed := s.handed ++ [⟨r, s.connections.owner r.conn.handle,
              decide (r.conn.peer ∈ s.connections.ended)⟩] }

/-- No peer has connected yet. -/
def NotifyServer.start (notifyHandle : UInt16) : NotifyServer ι :=
  { connections := .empty
    link := none
    peers := 0
    subscribers := []
    host := .idle
    conn := none
    notifyHandle := notifyHandle
    notifySubscribed := false
    point := fun _ => none
    handed := [] }

end

/-! ## The variables are those of the link -/

/-- The variables as the sequential model has them. -/
def NotifyServer.gatt {ι : Type*} (s : NotifyServer ι) : Gatt :=
  { connHandle := (s.conn.map PeerHandle.handle).getD BLE_HS_CONN_HANDLE_NONE
    notifyHandle := s.notifyHandle
    notifySubscribed := s.notifySubscribed }

section

variable {ι : Type*} [DecidableEq ι]

omit [DecidableEq ι] in
/-- A copy is taken exactly when the sequential model sends. -/
theorem listening_iff {s : NotifyServer ι} {l : Link} (hgatt : l.gatt = s.gatt)
    (hhandle : ∀ p, s.conn = some p → p.handle ≠ BLE_HS_CONN_HANDLE_NONE) :
    l.listening = true ↔
      ∃ p, s.conn = some p ∧ s.notifySubscribed = true ∧ s.notifyHandle ≠ 0 := by
  rw [Link.listening, hgatt, NotifyServer.gatt]
  rcases hconn : s.conn with _ | p
  · simp
  · have hne := hhandle p hconn
    simp [hne]

omit [DecidableEq ι] in
/-- The sections of the host task are those of the sequential model. -/
theorem gatt_gapEvent {s : NotifyServer ι} {l : Link} (hgatt : l.gatt = s.gatt) :
    s.gapEvent.gatt = match s.host with
      | .idle => l.gatt
      | .connecting p => (nivonaGattOnConnect l p.handle).gatt
      | .disconnecting => (nivonaGattOnDisconnect l).gatt
      | .subscribing _ attrHandle curNotify =>
          (nivonaGattOnSubscribe l attrHandle curNotify).gatt := by
  rcases hhost : s.host with _ | p | _ | ⟨peer, attrHandle, curNotify⟩
  · simp only [NotifyServer.gapEvent, hhost, hgatt]
  · simp only [NotifyServer.gapEvent, hhost, nivonaGattOnConnect, hgatt]
    rfl
  · simp only [NotifyServer.gapEvent, hhost, nivonaGattOnDisconnect, nivonaFrameReset, hgatt]
    rfl
  · simp only [NotifyServer.gapEvent, hhost, nivonaGattOnSubscribe, hgatt, NotifyServer.gatt]
    split
    · rfl
    · split
      · rfl
      · rfl

end

/-! ## What holds in every run -/

/-- The connection in the variables once the host task has run its section. -/
def NotifyServer.noted {ι : Type*} (s : NotifyServer ι) : Option ℕ :=
  match s.host with
  | .connecting p => some p.peer
  | .disconnecting => none
  | _ => s.conn.map PeerHandle.peer

/-- The connections are numbered, the notes of the program are right or out of date, and a
subscription that is on is one of the noted peer. -/
structure NotifyServer.Inv {ι : Type*} (s : NotifyServer ι) : Prop where
  ok : s.connections.Ok
  fresh : ∀ k, s.peers ≤ k → s.connections.New k
  only : ∀ handle, s.connections.owner handle ≠ none → s.link = some handle
  conn : ∀ p, s.conn = some p → s.connections.Noted p.handle p.peer
  connecting : ∀ p, s.host = .connecting p → s.connections.Noted p.handle p.peer
  heard : ∀ handle peer, s.connections.owner handle = some peer → s.noted = some peer
  subscribing : ∀ peer attrHandle curNotify,
    s.host = .subscribing peer attrHandle curNotify →
      s.conn.map PeerHandle.peer = some peer ∧
        (attrHandle = s.notifyHandle → curNotify = true → peer ∈ s.subscribers)
  subscribed : s.notifySubscribed = true → ∀ p, s.conn = some p → p.peer ∈ s.subscribers
  point : ∀ i r, s.point i = some r →
    s.connections.Noted r.conn.handle r.conn.peer ∧ r.listened = true
  handed : ∀ n ∈ s.handed, n.copied.listened = true ∧
    (n.met = some n.copied.conn.peer ↔ n.ended = false)

namespace NotifyServer.Inv

variable {ι : Type*} [DecidableEq ι] {s : NotifyServer ι}

omit [DecidableEq ι] in
theorem start (notifyHandle : UInt16) : (NotifyServer.start notifyHandle : NotifyServer ι).Inv where
  ok := Handles.ok_empty
  fresh k _ := by simp [Handles.Table.New, NotifyServer.start, Handles.Table.empty]
  only handle hopen := absurd rfl hopen
  conn p hp := by simp [NotifyServer.start] at hp
  connecting p hp := by simp [NotifyServer.start] at hp
  heard handle peer howner := by simp [NotifyServer.start, Handles.Table.empty] at howner
  subscribing peer attrHandle curNotify h := by simp [NotifyServer.start] at h
  subscribed h := by simp [NotifyServer.start] at h
  point i r h := by simp [NotifyServer.start] at h
  handed n h := by simp [NotifyServer.start] at h

omit [DecidableEq ι] in
/-- Without a connection every handle is free. -/
theorem free (h : s.Inv) (hlink : s.link = none) (handle : UInt16) :
    s.connections.owner handle = none := by
  by_contra hopen
  exact absurd ((h.only handle hopen).symm.trans hlink) (Option.some_ne_none handle)

omit [DecidableEq ι] in
theorem connect (h : s.Inv) (hlink : s.link = none) (handle : UInt16) :
    NotifyServer.Inv { s with
      connections := s.connections.open handle s.peers
      link := some handle
      peers := s.peers + 1
      host := .connecting ⟨handle, s.peers⟩ } where
  ok := h.ok.open (h.fresh s.peers (Nat.le_refl _))
  fresh k hk := (Handles.new_open (h.free hlink handle) (Nat.ne_of_gt hk)).mpr
    (h.fresh k (Nat.le_of_lt hk))
  only handle' hopen := by
    obtain ⟨peer, hpeer⟩ := Option.ne_none_iff_exists'.mp hopen
    rcases Handles.owner_of_open hpeer with ⟨hsame, -⟩ | ⟨-, hbefore⟩
    · rw [hsame]
    · rw [h.free hlink handle'] at hbefore
      cases hbefore
  conn p hp := (h.conn p hp).open (h.free hlink handle)
  connecting p hp := by
    obtain rfl := HostPoint.connecting.inj hp
    exact .inl Handles.owner_open_self
  heard handle' peer hpeer := by
    rcases Handles.owner_of_open hpeer with ⟨-, rfl⟩ | ⟨-, hbefore⟩
    · rfl
    · rw [h.free hlink handle'] at hbefore
      cases hbefore
  subscribing peer attrHandle curNotify hhost := by simp at hhost
  subscribed := h.subscribed
  point i r hr := ⟨(h.point i r hr).1.open (h.free hlink handle), (h.point i r hr).2⟩
  handed := h.handed

omit [DecidableEq ι] in
theorem disconnect (h : s.Inv) {handle : UInt16} (hlink : s.link = some handle) :
    NotifyServer.Inv { s with
      connections := s.connections.close handle
      link := none
      host := .disconnecting } := by
  have hfree (handle' : UInt16) : (s.connections.close handle).owner handle' = none := by
    by_contra hopen
    obtain ⟨peer, hpeer⟩ := Option.ne_none_iff_exists'.mp hopen
    obtain ⟨hne, hbefore⟩ := Handles.owner_of_close hpeer
    have hlink' := h.only handle' (Option.ne_none_iff_exists'.mpr ⟨peer, hbefore⟩)
    exact hne (Option.some.inj (hlink'.symm.trans hlink))
  exact {
    ok := h.ok.close
    fresh := fun k hk => Handles.new_close.mpr (h.fresh k hk)
    only := fun handle' hopen => absurd (hfree handle') hopen
    conn := fun p hp => (h.conn p hp).close
    connecting := fun p hp => by simp at hp
    heard := fun handle' peer hpeer => absurd ((hfree handle').symm.trans hpeer) (by simp)
    subscribing := fun peer attrHandle curNotify hhost => by simp at hhost
    subscribed := h.subscribed
    point := fun i r hr => ⟨(h.point i r hr).1.close, (h.point i r hr).2⟩
    handed := h.handed }

omit [DecidableEq ι] in
theorem subscribe (h : s.Inv) (hidle : s.host = .idle) {handle : UInt16} {peer : ℕ}
    (howner : s.connections.owner handle = some peer) (attrHandle : UInt16) (curNotify : Bool) :
    NotifyServer.Inv { s with
      host := .subscribing peer attrHandle curNotify
      subscribers :=
        if attrHandle = s.notifyHandle ∧ curNotify = true then peer :: s.subscribers
        else s.subscribers } := by
  have hnoted : s.noted = s.conn.map PeerHandle.peer := by
    rw [NotifyServer.noted, hidle]
  refine { h with
    connecting := fun p hp => by simp at hp
    heard := fun handle' peer' howner' => hnoted.symm.trans (h.heard handle' peer' howner')
    subscribing := ?_
    subscribed := ?_ }
  · intro peer' attrHandle' curNotify' hhost
    obtain ⟨rfl, rfl, rfl⟩ := HostPoint.subscribing.inj hhost
    refine ⟨hnoted.symm.trans (h.heard handle peer howner), ?_⟩
    intro hattr hcur
    rw [if_pos ⟨hattr, hcur⟩]
    exact List.mem_cons_self
  · intro hon p hp
    have hbefore := h.subscribed hon p hp
    split
    · exact List.mem_cons_of_mem _ hbefore
    · exact hbefore

omit [DecidableEq ι] in
/-- The subscription is taken back. -/
theorem unsubscribed (h : s.Inv) : NotifyServer.Inv { s with notifySubscribed := false } :=
  { h with subscribed := fun hon => absurd hon Bool.false_ne_true }

omit [DecidableEq ι] in
/-- The host task has run the section of `nivona_gatt_on_connect`. -/
theorem onConnect (h : s.Inv) {p : PeerHandle} (hhost : s.host = .connecting p) :
    NotifyServer.Inv { s with host := .idle, conn := some p, notifySubscribed := false } := by
  refine { h.unsubscribed with
    conn := ?_, connecting := ?_, heard := ?_, subscribing := ?_, subscribed := ?_ }
  · intro p' hp'
    obtain rfl := Option.some.inj hp'
    exact h.connecting p hhost
  · intro p' hp'
    simp at hp'
  · intro handle peer howner
    have hnoted := h.heard handle peer howner
    rw [NotifyServer.noted, hhost] at hnoted
    exact hnoted
  · intro peer attrHandle curNotify hsub
    simp at hsub
  · intro hon
    exact absurd hon Bool.false_ne_true

omit [DecidableEq ι] in
theorem onDisconnect (h : s.Inv) (hhost : s.host = .disconnecting) :
    NotifyServer.Inv { s with host := .idle, conn := none, notifySubscribed := false } := by
  refine { h.unsubscribed with
    conn := ?_, connecting := ?_, heard := ?_, subscribing := ?_, subscribed := ?_ }
  · intro p' hp'
    simp at hp'
  · intro p' hp'
    simp at hp'
  · intro handle peer howner
    have hnoted := h.heard handle peer howner
    rw [NotifyServer.noted, hhost] at hnoted
    exact hnoted
  · intro peer attrHandle curNotify hsub
    simp at hsub
  · intro hon
    exact absurd hon Bool.false_ne_true

omit [DecidableEq ι] in
theorem onSubscribe (h : s.Inv) {peer : ℕ} {attrHandle : UInt16} {curNotify : Bool}
    (hhost : s.host = .subscribing peer attrHandle curNotify) : s.gapEvent.Inv := by
  obtain ⟨hlast, hsubscriber⟩ := h.subscribing peer attrHandle curNotify hhost
  have hidle : NotifyServer.Inv { s with host := .idle } := by
    refine { h with connecting := ?_, heard := ?_, subscribing := ?_ }
    · intro p' hp'
      simp at hp'
    · intro handle peer' howner
      have hnoted := h.heard handle peer' howner
      rw [NotifyServer.noted, hhost] at hnoted
      exact hnoted
    · intro peer attrHandle curNotify hsub
      simp at hsub
  simp only [NotifyServer.gapEvent, hhost]
  split
  · exact hidle
  · split
    · rename_i hattr
      refine { hidle with subscribed := ?_ }
      intro hon p hp
      have hpeer : p.peer = peer := by
        rw [show s.conn = some p from hp] at hlast
        exact Option.some.inj hlast
      rw [hpeer]
      exact hsubscriber hattr hon
    · exact hidle

omit [DecidableEq ι] in
/-- The host task has run its section. -/
theorem gapEvent (h : s.Inv) : s.gapEvent.Inv := by
  rcases hhost : s.host with _ | p | _ | ⟨peer, attrHandle, curNotify⟩
  · simp only [NotifyServer.gapEvent, hhost]
    exact h
  · simp only [NotifyServer.gapEvent, hhost]
    exact h.onConnect hhost
  · simp only [NotifyServer.gapEvent, hhost]
    exact h.onDisconnect hhost
  · exact h.onSubscribe hhost

/-- A task has copied the variables: the copy is one of a peer that listens. -/
theorem copy (h : s.Inv) (i : ι) (data : List UInt8) :
    (notifyStep s (.copy i data)).Inv := by
  simp only [notifyStep]
  split
  · rename_i p hpoint hconn
    split
    · rename_i hsend
      refine { h with point := ?_ }
      intro j r hr
      by_cases hj : j = i
      · subst hj
        obtain rfl : _ = r := by simpa using hr
        refine ⟨h.conn p hconn, ?_⟩
        exact decide_eq_true (h.subscribed hsend.1 p hconn)
      · exact h.point j r (by simpa [hj] using hr)
    · exact h
  · exact h

/-- A task has handed its notification to the stack. -/
theorem hand (h : s.Inv) (i : ι) : (notifyStep s (.hand i)).Inv := by
  simp only [notifyStep]
  split
  · exact h
  · rename_i r hpoint
    refine { h with point := ?_, handed := ?_ }
    · intro j r' hr'
      by_cases hj : j = i
      · subst hj
        simp at hr'
      · exact h.point j r' (by simpa [hj] using hr')
    · intro n hn
      rcases List.mem_append.mp hn with hbefore | hnow
      · exact h.handed n hbefore
      · obtain rfl := List.mem_singleton.mp hnow
        obtain ⟨hnoted, hlistened⟩ := h.point i r hpoint
        refine ⟨hlistened, (hnoted.owner_iff h.ok).trans ?_⟩
        exact decide_eq_false_iff_not.symm

theorem step (h : s.Inv) (a : NotifyStep ι) : (notifyStep s a).Inv := by
  cases a with
  | connect handle =>
      simp only [notifyStep]
      split
      · rename_i hallowed
        exact h.connect hallowed.2.2 handle
      · exact h
  | disconnect =>
      simp only [notifyStep]
      split
      · rename_i hlink
        exact h.disconnect hlink
      · exact h
  | subscribe attrHandle curNotify =>
      simp only [notifyStep]
      split
      · rename_i peer hidle hpeer
        obtain ⟨handle, -, howner⟩ := Option.bind_eq_some_iff.mp hpeer
        exact h.subscribe hidle howner attrHandle curNotify
      · exact h
  | terminate attrHandle =>
      simp only [notifyStep]
      split
      · exact h.unsubscribed
      · exact h
  | gapEvent => exact h.gapEvent
  | copy i data => exact h.copy i data
  | hand i => exact h.hand i

end NotifyServer.Inv

/-- In every interleaving: every notification that is handed to the stack is meant for a peer
that had subscribed when the variables were copied, and it meets that peer exactly when the
connection has not ended since. -/
theorem notify_meets_subscriber {ι : Type*} [DecidableEq ι] (notifyHandle : UInt16)
    (steps : List (NotifyStep ι)) :
    ∀ n ∈ (Runs.run notifyStep (.start notifyHandle) steps).handed,
      n.copied.listened = true ∧ (n.met = some n.copied.conn.peer ↔ n.ended = false) :=
  (Runs.invariant (P := NotifyServer.Inv) (fun _ a hs => hs.step a)
    (NotifyServer.Inv.start notifyHandle) steps).handed

/-- A status for the first peer is on its way when that peer leaves and the next one is given
the same handle. -/
def nextPeerSteps : List (NotifyStep Unit) :=
  [.connect 1, .gapEvent, .subscribe 22 true, .gapEvent, .copy () [0x53], .disconnect,
    .gapEvent, .connect 1, .hand ()]

/-- It then reaches the second peer, which has not subscribed. -/
theorem notify_meets_subscriber_nextPeer :
    let n : HandedNotification := ⟨⟨⟨1, 0⟩, 22, [0x53], true⟩, some 1, true⟩
    n ∈ (Runs.run notifyStep (.start 22) nextPeerSteps).handed ∧
      (n.copied.listened = true ∧ (n.met = some n.copied.conn.peer ↔ n.ended = false)) ∧
      (Runs.run notifyStep (.start 22) nextPeerSteps).subscribers = [0] := by
  intro n
  have hn : n ∈ (Runs.run notifyStep (.start 22) nextPeerSteps).handed := by
    decide
  exact ⟨hn, notify_meets_subscriber 22 nextPeerSteps n hn, by decide⟩

end Nivona
