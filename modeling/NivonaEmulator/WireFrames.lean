import NivonaEmulator.Lib.Interleaving
import NivonaEmulator.Lib.Runs
import NivonaEmulator.ResponseRoundTrip
import NivonaEmulator.System

/-!
# Frames of several tasks on the wire

The host task, the brew task and the cycle task call `nivona_frame_send` at the
same time.  Each call works on a buffer of its own, but nothing keeps another
call out of its chunk loop: the notifications are interleaved one by one.
-/

namespace Nivona

/-! ## Senders -/

/-- The tasks that send frames. -/
inductive SendTask
  | host | brew | cycle
  deriving DecidableEq, Repr

instance : Fintype SendTask where
  elems := {.host, .brew, .cycle}
  complete := fun t => by cases t <;> simp

/-- One call of `nivona_frame_send`. -/
structure FrameSend where
  cmd : Cmd
  payload : List UInt8
  includeKeyPrefix : Bool
  encrypt : Bool
  deriving DecidableEq, Repr

/-- The call of `push_status`. -/
def FrameSend.pushStatus (s : Status) : FrameSend :=
  ⟨CMD_READ_STATUS, nivonaFsmPackStatus s, false, true⟩

/-- The frame of a call. -/
def FrameSend.frame (l : Link) (c : FrameSend) : List UInt8 :=
  frameOf c.cmd (sendPrefix l c.includeKeyPrefix ++ c.payload) c.encrypt

/-- The notifications of a call. -/
def FrameSend.chunks (l : Link) (c : FrameSend) : List (List UInt8) :=
  frameSendChunks l c.cmd c.payload c.includeKeyPrefix c.encrypt

def FrameSend.run (l : Link) (c : FrameSend) : Link :=
  nivonaFrameSend l c.cmd c.payload c.includeKeyPrefix c.encrypt

/-- What a running task pushes. -/
theorem pushStatus_link (m : Machine) :
    (pushStatus m).link = (FrameSend.pushStatus m.core.status).run m.link := rfl

/-- The calls of each task: any replies, and status pushes of the two others. -/
def taskSends (host : List FrameSend) (brew cycle : List Status) : SendTask → List FrameSend
  | .host => host
  | .brew => brew.map FrameSend.pushStatus
  | .cycle => cycle.map FrameSend.pushStatus

/-- The chunks of the calls of each task. -/
def taskFrames (l : Link) (calls : SendTask → List FrameSend) (t : SendTask) :
    List (List (List UInt8)) :=
  (calls t).map (FrameSend.chunks l)

/-- A notification, with the task and the call it belongs to. -/
abbrev SentPiece := Interleaving.Piece (SendTask × ℕ) (List UInt8)

structure Senders where
  link : Link
  pending : SendTask → List SentPiece
  sent : List SentPiece

/-- All calls are still to be made. -/
def Senders.start (l : Link) (calls : SendTask → List FrameSend) : Senders :=
  { link := l, pending := Interleaving.queue (taskFrames l calls), sent := [] }

/-- A task makes its next call of `nivona_gatt_notify`. -/
def sendersStep (s : Senders) (t : SendTask) : Senders :=
  match s.pending t with
  | [] => s
  | p :: rest =>
      { link := nivonaGattNotify s.link p.data
        pending := Function.update s.pending t rest
        sent := s.sent ++ [p] }

/-! ## Runs are interleavings -/

theorem run_sendersStep (s : Senders) (schedule : List SendTask) :
    Runs.run sendersStep s schedule =
      { link := ((Interleaving.merge s.pending schedule).map
          Interleaving.Piece.data).foldl nivonaGattNotify s.link
        pending := Interleaving.leftover s.pending schedule
        sent := s.sent ++ Interleaving.merge s.pending schedule } := by
  induction schedule generalizing s with
  | nil => simp [Interleaving.merge, Interleaving.leftover]
  | cons t schedule ih =>
      rw [Runs.run_cons, ih, Interleaving.merge, Interleaving.leftover, sendersStep]
      cases hp : s.pending t with
      | nil =>
          have hsame : Function.update s.pending t ([] : List SentPiece).tail = s.pending := by
            rw [List.tail_nil, ← hp, Function.update_eq_self]
          simp only [hsame]
      | cons p rest => simp

/-- Sending does not change the frames of the calls to come. -/
theorem chunks_nivonaFrameSend (l : Link) (c d : FrameSend) :
    d.chunks (c.run l) = d.chunks l := by
  have hprefix (b : Bool) : sendPrefix (c.run l) b = sendPrefix l b := by
    simp only [sendPrefix, FrameSend.run, nivonaFrameSend_frame]
  rw [FrameSend.chunks, FrameSend.chunks, frameSendChunks, frameSendChunks, hprefix]

/-- A task that is alone makes its calls one after the other. -/
theorem run_alone (l : Link) (calls : SendTask → List FrameSend) (t : SendTask) :
    (Runs.run sendersStep (Senders.start l calls)
      (List.replicate (Interleaving.queue (taskFrames l calls) t).length t)).link =
        (calls t).foldl FrameSend.run l := by
  rw [run_sendersStep, Senders.start, Interleaving.merge_replicate, List.take_length,
    Interleaving.map_data_queue, taskFrames]
  generalize calls t = cs
  induction cs generalizing l with
  | nil => rfl
  | cons c cs ih =>
      have hrest : cs.map (FrameSend.chunks l) = cs.map (FrameSend.chunks (c.run l)) :=
        List.map_congr_left fun d _ => (chunks_nivonaFrameSend l c d).symm
      rw [List.map_cons, List.flatten_cons, List.foldl_append, List.foldl_cons, ← ih, ← hrest]
      rfl

/-! ## Chunks of a call -/

/-- The call passes the two checks of `nivona_frame_send`. -/
def FrameSend.Fits (l : Link) (c : FrameSend) : Prop :=
  (c.cmd.length = 1 ∨ c.cmd.length = 2) ∧ (c.frame l).length ≤ MAX_FRAME_BYTES

instance (l : Link) (c : FrameSend) : Decidable (c.Fits l) :=
  inferInstanceAs (Decidable (_ ∧ _))

theorem chunks_eq (l : Link) (c : FrameSend) :
    c.chunks l = if c.Fits l then Chunks.chunks BLE_MTU (c.frame l) else [] :=
  frameSendChunks_eq l c.cmd c.payload c.includeKeyPrefix c.encrypt

theorem frame_ne_nil (l : Link) (c : FrameSend) : c.frame l ≠ [] :=
  List.cons_ne_nil _ _

/-- A short frame is a single notification. -/
theorem chunks_of_short {l : Link} {c : FrameSend} (hfits : c.Fits l)
    (hshort : (c.frame l).length ≤ BLE_MTU) : c.chunks l = [c.frame l] := by
  rw [chunks_eq, if_pos hfits]
  exact Chunks.chunks_of_length_le (frame_ne_nil l c) hshort

/-- A call goes out in several notifications exactly when its frame is sent and
longer than one. -/
theorem two_le_length_chunks_iff (l : Link) (c : FrameSend) :
    2 ≤ (c.chunks l).length ↔ c.Fits l ∧ BLE_MTU < (c.frame l).length := by
  by_cases hfits : c.Fits l
  · constructor
    · intro hlen
      refine ⟨hfits, ?_⟩
      by_contra hshort
      rw [chunks_of_short hfits (Nat.le_of_not_lt hshort)] at hlen
      simp at hlen
    · intro h
      rw [chunks_eq, if_pos hfits]
      exact Chunks.two_le_length_chunks (by decide) h.2
  · rw [chunks_eq, if_neg hfits]
    exact ⟨fun h => absurd h (by simp), fun h => absurd h.1 hfits⟩

theorem length_frame_pushStatus (l : Link) (s : Status) :
    ((FrameSend.pushStatus s).frame l).length = 13 := by
  have hbody : (sendPrefix l false ++ nivonaFsmPackStatus s).length = 8 := by
    rw [List.length_append, length_nivonaFsmPackStatus]
    rfl
  rw [FrameSend.frame, FrameSend.pushStatus, length_frameOf, hbody]
  rfl

/-- A status push is a single notification. -/
theorem chunks_pushStatus (l : Link) (s : Status) :
    (FrameSend.pushStatus s).chunks l = [(FrameSend.pushStatus s).frame l] := by
  have hlen := length_frame_pushStatus l s
  exact chunks_of_short ⟨.inr rfl, by rw [hlen]; decide⟩ (by rw [hlen]; decide)

/-! ## The result -/

/-- Two tasks that can cut into each other: one has a frame of several chunks,
and the other sends something. -/
theorem pushes_separate_iff (l : Link) (host : List FrameSend) (brew cycle : List Status) :
    (∀ i j, i ≠ j →
      (∃ f ∈ taskFrames l (taskSends host brew cycle) i, 2 ≤ f.length) →
        ∀ g ∈ taskFrames l (taskSends host brew cycle) j, g = []) ↔
    (∀ c ∈ host, c.Fits l → (c.frame l).length ≤ BLE_MTU) ∨ (brew = [] ∧ cycle = []) := by
  have hpush (ss : List Status) :
      ∀ f ∈ (ss.map FrameSend.pushStatus).map (FrameSend.chunks l), f.length = 1 := by
    intro f hf
    obtain ⟨c, hc, rfl⟩ := List.mem_map.mp hf
    obtain ⟨s, -, rfl⟩ := List.mem_map.mp hc
    rw [chunks_pushStatus, List.length_singleton]
  have hnil {ss : List Status}
      (h : ∀ g ∈ (ss.map FrameSend.pushStatus).map (FrameSend.chunks l), g = []) : ss = [] := by
    cases ss with
    | nil => rfl
    | cons s ss => exact absurd (h _ List.mem_cons_self) (by simp [chunks_pushStatus])
  constructor
  · intro h
    by_cases hlong : ∃ c ∈ host, c.Fits l ∧ BLE_MTU < (c.frame l).length
    · right
      obtain ⟨c, hc, hlong⟩ := hlong
      have hf : ∃ f ∈ taskFrames l (taskSends host brew cycle) .host, 2 ≤ f.length :=
        ⟨_, List.mem_map_of_mem hc, (two_le_length_chunks_iff l c).mpr hlong⟩
      exact ⟨hnil (h .host .brew (by decide) hf), hnil (h .host .cycle (by decide) hf)⟩
    · left
      intro c hc hfits
      by_contra hlt
      exact hlong ⟨c, hc, hfits, Nat.lt_of_not_le hlt⟩
  · rintro (hshort | ⟨rfl, rfl⟩) i j hij ⟨f, hf, hlen⟩
    · exfalso
      cases i with
      | host =>
          obtain ⟨c, hc, rfl⟩ := List.mem_map.mp hf
          have hlong := (two_le_length_chunks_iff l c).mp hlen
          exact Nat.not_le_of_lt hlong.2 (hshort c hc hlong.1)
      | brew => exact absurd (hpush brew f hf) (by omega)
      | cycle => exact absurd (hpush cycle f hf) (by omega)
    · cases i with
      | host =>
          cases j with
          | host => exact absurd rfl hij
          | brew => simp [taskFrames, taskSends]
          | cycle => simp [taskFrames, taskSends]
      | brew => simp [taskFrames, taskSends] at hf
      | cycle => simp [taskFrames, taskSends] at hf

/-- What a subscribed peer sees is a concatenation of complete frames under
every schedule exactly when no reply longer than one notification meets a
status push. -/
theorem frames_contiguous_iff (l : Link) (hl : l.Delivers) (host : List FrameSend)
    (brew cycle : List Status) :
    let calls := taskSends host brew cycle
    (∀ schedule : List SendTask,
      let s := Runs.run sendersStep (Senders.start l calls) schedule
      (∀ t, s.pending t = []) →
        s.link.wire = l.wire ++ s.sent.map (fun p =>
          Notification.mk l.gatt.connHandle l.gatt.notifyHandle p.data) ∧
        Interleaving.Contiguous (Interleaving.frameContent (taskFrames l calls)) s.sent) ↔
    (∀ c ∈ host, c.Fits l → (c.frame l).length ≤ BLE_MTU) ∨ (brew = [] ∧ cycle = []) := by
  intro calls
  have hwire (ps : List SentPiece) :
      ((ps.map Interleaving.Piece.data).foldl nivonaGattNotify l).wire =
        l.wire ++ ps.map (fun p =>
          Notification.mk l.gatt.connHandle l.gatt.notifyHandle p.data) := by
    rw [hl.wire_foldl, List.map_map]
    rfl
  rw [← pushes_separate_iff, ← Interleaving.contiguous_merge_iff]
  constructor
  · intro h schedule hdone
    have hrun := h schedule
    simp only [run_sendersStep] at hrun
    exact (hrun hdone).2
  · intro h schedule
    simp only [run_sendersStep]
    exact fun hdone => ⟨hwire _, h schedule hdone⟩

/-- The link of a new machine with a subscribed peer. -/
def Link.subscribedFresh : Link :=
  nivonaGattOnSubscribe (nivonaGattOnConnect Machine.factoryFresh.link 0) 1 true

theorem delivers_subscribedFresh : Link.subscribedFresh.Delivers :=
  ⟨by decide, fun _ => rfl⟩

/-- The reply to HA for the first profile name. -/
def FrameSend.haProfile : FrameSend :=
  ⟨CMD_READ_ALPHA, putBe16 (profileId 0) ++ zeroPadded NIVONA_ALPHA_MAX (profileName 0),
    false, true⟩

theorem length_frame_haProfile (l : Link) : (FrameSend.haProfile.frame l).length = 71 := by
  have hbody : (sendPrefix l false ++ (putBe16 (profileId 0) ++
      zeroPadded NIVONA_ALPHA_MAX (profileName 0))).length = 66 := by
    rw [List.length_append, List.length_append, length_putBe16, length_zeroPadded]
    rfl
  rw [FrameSend.frame, FrameSend.haProfile, length_frameOf, hbody]
  rfl

/-- The reply to HA sent with no status push around. -/
def Senders.haProfileSent : Senders :=
  Runs.run sendersStep (Senders.start Link.subscribedFresh (taskSends [.haProfile] [] []))
    [.host, .host, .host, .host]

/-- The reply to HR for a gauge. -/
def FrameSend.hrGauge : FrameSend :=
  ⟨CMD_READ_NUMERICAL, putBe16 600 ++ putBe32 100, false, true⟩

/-- Two replies to HR among the status pushes of both tasks. -/
def Senders.hrGaugesSent : Senders :=
  Runs.run sendersStep (Senders.start Link.subscribedFresh
    (taskSends [.hrGauge, .hrGauge] [Status.ready 3] [Status.ready 3]))
    [.brew, .host, .cycle, .host]

/-- A long reply that meets no status push, and short replies that do. -/
theorem frames_contiguous_haProfile :
    (Senders.haProfileSent.link.wire =
      Link.subscribedFresh.wire ++ Senders.haProfileSent.sent.map (fun p =>
        Notification.mk Link.subscribedFresh.gatt.connHandle
          Link.subscribedFresh.gatt.notifyHandle p.data) ∧
      Interleaving.Contiguous (Interleaving.frameContent
        (taskFrames Link.subscribedFresh (taskSends [.haProfile] [] [])))
        Senders.haProfileSent.sent) ∧
    Senders.hrGaugesSent.link.wire =
      Link.subscribedFresh.wire ++ Senders.hrGaugesSent.sent.map (fun p =>
        Notification.mk Link.subscribedFresh.gatt.connHandle
          Link.subscribedFresh.gatt.notifyHandle p.data) ∧
      Interleaving.Contiguous (Interleaving.frameContent
        (taskFrames Link.subscribedFresh
          (taskSends [.hrGauge, .hrGauge] [Status.ready 3] [Status.ready 3])))
        Senders.hrGaugesSent.sent := by
  constructor
  · have hrun := (frames_contiguous_iff Link.subscribedFresh delivers_subscribedFresh
      [.haProfile] [] []).mpr (.inr ⟨rfl, rfl⟩)
    apply hrun [.host, .host, .host, .host]
    intro t
    cases t <;> decide +kernel
  · have hshort : ∀ c ∈ [FrameSend.hrGauge, FrameSend.hrGauge], c.Fits Link.subscribedFresh →
        (c.frame Link.subscribedFresh).length ≤ BLE_MTU := by
      decide +kernel
    have hrun := (frames_contiguous_iff Link.subscribedFresh delivers_subscribedFresh
      [.hrGauge, .hrGauge] [Status.ready 3] [Status.ready 3]).mpr (.inl hshort)
    apply hrun [.brew, .host, .cycle, .host]
    intro t
    cases t <;> decide +kernel

/-- A status push of the brew task can cut the reply to HA in two. -/
theorem haProfile_torn_by_status :
    ¬∀ schedule : List SendTask,
      let s := Runs.run sendersStep (Senders.start Link.subscribedFresh
        (taskSends [.haProfile] [Status.ready 3] [])) schedule
      (∀ t, s.pending t = []) →
        Interleaving.Contiguous (Interleaving.frameContent (taskFrames Link.subscribedFresh
          (taskSends [.haProfile] [Status.ready 3] []))) s.sent := by
  intro h
  have hlen := length_frame_haProfile Link.subscribedFresh
  have hlong : 2 ≤ (FrameSend.haProfile.chunks Link.subscribedFresh).length :=
    (two_le_length_chunks_iff _ _).mpr ⟨⟨.inr rfl, by rw [hlen]; decide⟩, by rw [hlen]; decide⟩
  obtain ⟨schedule, hdone, htorn⟩ := @Interleaving.exists_torn _ _ _
    (taskFrames Link.subscribedFresh (taskSends [.haProfile] [Status.ready 3] [])) _
    .host .brew (by decide) _ _ List.mem_cons_self hlong List.mem_cons_self
    (by simp [chunks_pushStatus])
  have hrun := h schedule
  simp only [run_sendersStep] at hrun
  exact htorn (hrun hdone)

end Nivona
