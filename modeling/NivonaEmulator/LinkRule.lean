import NivonaEmulator.Session

/-!
# Links under a write

The parser and the handlers act on the link by notifications and by changes that
neither send nor touch the connection.  A relation between links that these two
keep is kept by a whole AD03 write.
-/

namespace Nivona

/-! ## The rule -/

/-- The captures of the raw write are the same. -/
def Diag.SameWrite (d d' : Diag) : Prop :=
  d'.lastAd03Len = d.lastAd03Len ∧ d'.lastAd03 = d.lastAd03

/-- The session, the counters, the other captures or the record of calls may
have changed. -/
structure Link.Quiet (l l' : Link) : Prop where
  gatt : l'.gatt = l.gatt
  deviceName : l'.deviceName = l.deviceName
  wire : l'.wire = l.wire
  write : l.diag.SameWrite l'.diag

/-- Quiet changes and notifications keep the relation. -/
structure LinkRule (R : Link → Link → Prop) : Prop where
  trans {l₁ l₂ l₃ : Link} : R l₁ l₂ → R l₂ l₃ → R l₁ l₃
  quiet {l l' : Link} : l.Quiet l' → R l l'
  notify (l : Link) (data : List UInt8) : R l (nivonaGattNotify l data)

section

variable {R : Link → Link → Prop} (h : LinkRule R)
include h

theorem LinkRule.count (l : Link) {d : Diag} (hd : l.diag.SameWrite d) :
    R l { l with diag := d } :=
  h.quiet ⟨rfl, rfl, rfl, hd⟩

theorem LinkRule.frame (l : Link) (f : Frame) : R l { l with frame := f } :=
  h.quiet ⟨rfl, rfl, rfl, rfl, rfl⟩

theorem LinkRule.send (l : Link) (cmd : Cmd) (payload : List UInt8) (kp enc : Bool) :
    R l (nivonaFrameSend l cmd payload kp enc) := by
  rw [nivonaFrameSend]
  generalize frameSendChunks l cmd payload kp enc = chunks
  induction chunks generalizing l with
  | nil => exact h.frame l l.frame
  | cons chunk chunks ih => exact h.trans (h.notify l chunk) (ih _)

/-! ## Handlers -/

theorem LinkRule.handleHu (m : Machine) (payload : List UInt8) :
    R m.link (handleHu m payload).link := by
  by_cases hlen : payload.length < 6
  · rw [handleHu_cut hlen]
    exact h.count m.link ⟨rfl, rfl⟩
  · rw [handleHu_whole (Nat.le_of_not_lt hlen)]
    have hcount : m.link.diag.SameWrite (m.link.diag.countHu payload) := by
      rw [Diag.countHu]
      split <;> exact ⟨rfl, rfl⟩
    have hkeyed : R m.link { m.link.keyed with diag := m.link.diag.countHu payload } :=
      h.quiet ⟨rfl, rfl, rfl, hcount⟩
    have hsent := h.trans hkeyed (h.send _ CMD_HANDSHAKE
      (huResponse (payload.take 4) (m.link.randomKeys 0)) false true)
    exact h.trans hsent (h.count _ ⟨rfl, rfl⟩)

theorem LinkRule.handleHe (m : Machine) (payload : List UInt8) :
    R m.link (handleHe m payload).link := by
  obtain ⟨cmd, -, hlink⟩ := handleHe_link m payload
  rw [hlink]
  exact h.send m.link cmd [] false false

theorem LinkRule.dispatchHandler (m : Machine) (cmd : Cmd) (payload : List UInt8) :
    R m.link (dispatchHandler m cmd payload).link := by
  have hresp (c : Cmd) (p : List UInt8) : R m.link (sendResponse m c p).link :=
    h.send _ _ _ _ _
  have hack (core : Core) : R m.link (sendAck { m with core := core }).link :=
    h.send _ _ _ _ _
  have hx : R m.link (handleHx m).link :=
    h.trans (hresp CMD_READ_STATUS (nivonaFsmPackStatus m.core.status)) (h.count _ ⟨rfl, rfl⟩)
  have hunhandled : R m.link (handleUnhandled m).link :=
    h.trans (h.count m.link (d := { m.link.diag with unhandled := m.link.diag.unhandled + 1 })
      ⟨rfl, rfl⟩) (h.send _ CMD_ACK [] false false)
  exact dispatchHandler_induction (P := fun m' => R m.link m'.link)
    (fun _ => h.handleHu m payload) (fun _ => hx)
    (fun _ => hresp _ _) (fun _ => hresp _ _) (fun _ => hresp _ _) (fun _ => hresp _ _)
    (fun _ => hresp _ _) (fun _ => hresp _ _) (fun _ => hresp _ _) (fun _ => hresp _ _)
    (fun _ => hack _) (fun _ => hack _) (fun _ => h.handleHe m payload)
    (fun _ => hack _) (fun _ => hack _) (fun _ => hack _) (fun _ => hack _) (fun _ => hack _)
    hunhandled

theorem LinkRule.dispatch (m : Machine) (cmd : Cmd) (payload : List UInt8) :
    R m.link (nivonaDispatch m cmd payload).link := by
  have hcall : R m.link
      { m.link with calls := m.link.calls ++ [Call.dispatch cmd payload] } :=
    h.quiet ⟨rfl, rfl, rfl, rfl, rfl⟩
  exact h.trans hcall (h.dispatchHandler
    { m with link := { m.link with calls := m.link.calls ++ [Call.dispatch cmd payload] } }
    cmd payload)

/-! ## Parsing -/

theorem LinkRule.tryParse (m : Machine) : R m.link (tryParse m).link := by
  cases hopen : openFrame m.link.frame.handshakeDone m.link.frame.buf with
  | error e =>
      rw [tryParse_error hopen]
      refine h.count m.link ?_
      rw [Diag.refusedBy.eq_def]
      split <;> exact ⟨rfl, rfl⟩
  | ok o =>
      have hopened : R m.link (m.withDiag (m.link.diag.openedBy m.link.frame o)).link := by
        refine h.count m.link ?_
        rw [Diag.openedBy]
        split <;> exact ⟨rfl, rfl⟩
      rw [tryParse_ok hopen]
      split
      · exact hopened
      · exact h.trans hopened (h.dispatch _ _ _)

theorem LinkRule.feedByte (m : Machine) (b : UInt8) : R m.link (feedByte m b).link := by
  rcases feedByte_setFrame_or_ends m b with ⟨f, hf⟩ | ⟨hin, hroom, hc⟩
  · rw [hf]
    exact h.frame m.link f
  · rw [feedByte_ends hin hroom hc]
    have hrecv : R m.link
        (m.receiving (m.link.frame.buf ++ [b]) (length_push_le hroom)).link :=
      h.frame m.link _
    exact h.trans (h.trans hrecv (h.tryParse _)) (h.frame _ _)

theorem LinkRule.feed (m : Machine) (data : List UInt8) :
    R m.link (nivonaFrameFeed m data).link := by
  induction data generalizing m with
  | nil => exact h.frame m.link m.link.frame
  | cons b data ih => exact h.trans (h.feedByte m b) (ih (Nivona.feedByte m b))

end

/-! ## Writes -/

/-- An AD03 write before its bytes are parsed. -/
def beginWrite (m : Machine) (data : List UInt8) : Machine :=
  m.onDiag fun d =>
    { d with
      ad03Writes := d.ad03Writes + 1
      lastAd03Len := UInt32.ofNat (data.take 256).length
      lastAd03 := (data.take 256).take 64 }

theorem onAd03Write_eq (m : Machine) (data : List UInt8) :
    onAd03Write m data = nivonaFrameFeed (beginWrite m data) (data.take 256) := rfl

theorem sameWriteRule : LinkRule fun l l' => l.diag.SameWrite l'.diag where
  trans h h' := ⟨h'.1.trans h.1, h'.2.trans h.2⟩
  quiet h := h.write
  notify l data := by
    rw [nivonaGattNotify_spec]
    dsimp only
    rw [Link.countAnswer]
    split
    · split <;> exact ⟨rfl, rfl⟩
    · exact ⟨rfl, rfl⟩

/-- Parsing a write leaves its captures alone. -/
theorem sameWrite_onAd03Write (m : Machine) (data : List UInt8) :
    (beginWrite m data).link.diag.SameWrite (onAd03Write m data).link.diag :=
  sameWriteRule.feed (beginWrite m data) (data.take 256)

end Nivona
