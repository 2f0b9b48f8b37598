import NivonaEmulator.DiagRecord
import NivonaEmulator.Lib.Lockstep
import NivonaEmulator.MachineRun
import NivonaEmulator.VariableLength

/-!
# The diagnostic endpoint

What `diag_get` prints while two clients do the same with different session
keys.
-/

namespace Nivona

/-- The values `diag_get` prints, apart from `ad01_writes`, which counts writes
that go nowhere. -/
structure DiagReport where
  connects : UInt32
  disconnects : UInt32
  subscribes : UInt32
  ad03Writes : UInt32
  notifyOk : UInt32
  notifyFail : UInt32
  tryParse : UInt32
  csMismatch : UInt32
  unknownCmd : UInt32
  framesParsed : UInt32
  huRx : UInt32
  huVerOk : UInt32
  huVerBad : UInt32
  huResp : UInt32
  hxResp : UInt32
  unhandled : UInt32
  lastAd03Len : UInt32
  lastAd03 : List UInt8
  lastDecrypt : List UInt8
  recvCs : UInt8
  expectCs : UInt8
  deriving DecidableEq, Repr

/-- `diag_get`; of the captures at most 32 bytes are printed. -/
def diagGet (d : Diag) : DiagReport :=
  { connects := d.connects
    disconnects := d.disconnects
    subscribes := d.subscribes
    ad03Writes := d.ad03Writes
    notifyOk := d.notifiesSent
    notifyFail := d.notifiesFailed
    tryParse := d.tryParseCalled
    csMismatch := d.csMismatch
    unknownCmd := d.unknownCmd
    framesParsed := d.frameParsed
    huRx := d.huRx
    huVerOk := d.huVerOk
    huVerBad := d.huVerBad
    huResp := d.huResp
    hxResp := d.hxResp
    unhandled := d.unhandled
    lastAd03Len := d.lastAd03Len
    lastAd03 := (d.lastAd03.take d.lastAd03Len.toNat).take 32
    lastDecrypt := d.lastDecrypt.take 32
    recvCs := d.lastRecvCs
    expectCs := d.lastExpectCs }

def Machine.report (m : Machine) : DiagReport := diagGet m.link.diag

/-! ## Clients -/

/-- The four bytes a client draws for its handshake. -/
abbrev Seed := { bytes : List UInt8 // bytes.length = 4 }

/-- What a client does; a request is given by its second command byte and its
payload. -/
inductive ClientStep
  | connect (connHandle : UInt16)
  | subscribe (attrHandle : UInt16) (curNotify : Bool)
  | hello (seed : Seed)
  | request (c : UInt8) (payload : List UInt8)
  | disconnect

/-- The event of a step; requests carry the key of the session in progress. -/
def ClientStep.event (l : Link) : ClientStep → Event
  | .connect connHandle => .connect connHandle
  | .subscribe attrHandle curNotify => .subscribe attrHandle curNotify
  | .hello seed => .ad03Write (Client.buildHuFrame seed.1)
  | .request c payload =>
      .ad03Write (Client.buildFrame (hCmd c) payload (sendPrefix l true) true)
  | .disconnect => .disconnect

def clientStep (m : Machine) (a : ClientStep) : Machine :=
  machineStep m (a.event m.link)

/-- The machine within a write, when `k` bytes of it have been parsed. -/
def duringWrite (m : Machine) (data : List UInt8) (k : ℕ) : Machine :=
  nivonaFrameFeed (beginWrite m data) ((data.take 256).take k)

/-- The `k`-th byte of a write ends a frame. -/
def FrameEndsAt (m : Machine) (data : List UInt8) (k : ℕ) : Prop :=
  ∃ b, (data.take 256)[k]? = some b ∧ EndsFrame (duringWrite m data k) b

/-- The reports agree after every frame that a write of each client ends. -/
def FramesAgree (p : Machine × Machine) (data data' : List UInt8) : Prop :=
  ∀ k, FrameEndsAt p.1 data k ∨ FrameEndsAt p.2 data' k →
    (duringWrite p.1 data (k + 1)).report = (duringWrite p.2 data' (k + 1)).report

/-- The reports agree after a step of both clients, and after every frame that
is parsed within it. -/
def ReportsAgree (p : Machine × Machine) (a : ClientStep) : Prop :=
  (clientStep p.1 a).report = (clientStep p.2 a).report ∧
    match a.event p.1.link, a.event p.2.link with
    | .ad03Write data, .ad03Write data' => FramesAgree p data data'
    | _, _ => True

/-! ## Writes -/

/-- No byte of the write splits the runs. -/
def NoSplit (p : Machine × Machine) (data : List UInt8) : Prop :=
  Runs.Guarded (Lockstep.step feedByte) (fun q b => ¬SplitsAt q b)
    (beginWrite p.1 data, beginWrite p.2 data) (data.take 256)

section

variable {m m' : Machine} (h : m.link.SameRecord m'.link)
include h

theorem sameRecord_beginWrite (data : List UInt8) :
    (beginWrite m data).link.SameRecord (beginWrite m' data).link :=
  sameRecord_onDiag h _

/-- Bytes that do not split the runs leave the same record. -/
theorem sameRecord_onAd03Write {data : List UInt8} (hsplit : NoSplit (m, m') data) :
    (onAd03Write m data).link.SameRecord (onAd03Write m' data).link := by
  have hrun := hsplit.invariant (P := fun q : Machine × Machine => q.1.link.SameRecord q.2.link)
    (fun q b hq hb => sameRecord_feedByte hq hb) (sameRecord_beginWrite h data)
  rw [Lockstep.run_step] at hrun
  exact hrun

/-- The reports agree after every frame exactly when no byte splits the runs. -/
theorem framesAgree_iff_noSplit (data : List UInt8) :
    FramesAgree (m, m') data data ↔ NoSplit (m, m') data := by
  have hinit := sameRecord_beginWrite h data
  have hduring (k : ℕ) : Runs.run (Lockstep.step feedByte)
      (beginWrite m data, beginWrite m' data) ((data.take 256).take k) =
        (duringWrite m data k, duringWrite m' data k) :=
    Lockstep.run_step _ _ _
  -- a byte that splits the runs ends a frame, after which the answers differ
  have hiff : Runs.Guarded (Lockstep.step feedByte)
      (fun q b => EndsFrame q.1 b → (feedByte q.1 b).report = (feedByte q.2 b).report)
      (beginWrite m data, beginWrite m' data) (data.take 256) ↔ NoSplit (m, m') data := by
    apply Lockstep.guarded_iff_guarded (R := fun m m' : Machine => m.link.SameRecord m'.link)
    · exact fun n n' b hn hb => sameRecord_feedByte hn hb
    · intro n n' b hn
      constructor
      · exact fun hshow hs =>
          huResp_ne_of_splitsAt hn hs (congrArg DiagReport.huResp (hshow hs.1))
      · exact fun hb _ => congrArg diagGet (sameRecord_feedByte hn hb).diag
    · exact hinit
  constructor
  · intro hagree
    rw [← hiff, Runs.guarded_iff_getElem?]
    intro k b hk
    rw [hduring]
    intro hends
    have hreport := hagree k (.inl ⟨b, hk, hends⟩)
    have hnext (n : Machine) :
        duringWrite n data (k + 1) = feedByte (duringWrite n data k) b := by
      rw [duringWrite, List.take_add_one, hk, nivonaFrameFeed_append]
      rfl
    rwa [hnext, hnext] at hreport
  · intro hsplit k _
    rw [NoSplit, ← List.take_append_drop (k + 1) (data.take 256)] at hsplit
    have hrun := hsplit.prefix_of.invariant
      (P := fun q : Machine × Machine => q.1.link.SameRecord q.2.link)
      (fun q b hq hb => sameRecord_feedByte hq hb) hinit
    rw [hduring] at hrun
    exact congrArg diagGet hrun.diag

end

/-! ## The raw bytes -/

theorem KeyPrefix.bytes_injective : Function.Injective KeyPrefix.bytes := by
  intro kp kp' h
  obtain ⟨h0, htail⟩ := List.cons.inj h
  obtain ⟨h1, -⟩ := List.cons.inj htail
  cases kp
  cases kp'
  obtain rfl := h0
  obtain rfl := h1
  rfl

/-- After a write the report shows its first bytes. -/
theorem take_lastAd03 (m : Machine) {data : List UInt8} (hlen : 5 ≤ data.length) :
    (onAd03Write m data).report.lastAd03.take 5 = data.take 5 := by
  obtain ⟨hkeptLen, hkept⟩ := sameWrite_onAd03Write m data
  have hsize : (UInt32.ofNat (data.take 256).length).toNat = (data.take 256).length := by
    have hle : (data.take 256).length ≤ 256 := List.length_take_le _ _
    exact UInt32.toNat_ofNat_of_lt' (hle.trans_lt (by decide))
  have hshown : (onAd03Write m data).report.lastAd03 =
      (((data.take 256).take 64).take (data.take 256).length).take 32 := by
    rw [Machine.report, diagGet, hkept, hkeptLen]
    exact congrArg (fun n => (((data.take 256).take 64).take n).take 32) hsize
  rw [hshown, List.take_take, List.take_take, List.take_take, List.take_take, List.length_take]
  congr 1
  omega

/-- The first bytes of a request tell its key. -/
theorem keyPrefix_eq_of_take (c : UInt8) (payload : List UInt8) (kp kp' : KeyPrefix)
    (h : (Client.buildFrame (hCmd c) payload kp.bytes true).take 5 =
      (Client.buildFrame (hCmd c) payload kp'.bytes true).take 5) : kp = kp' := by
  have hcipher (kp : KeyPrefix) :
      ((frameOf (hCmd c) (kp.bytes ++ payload) true).take 5).drop 3 =
        (cipherBody (hCmd c) (kp.bytes ++ payload)).take 2 := by
    have htwo : 2 ≤ (cipherBody (hCmd c) (kp.bytes ++ payload)).length := by
      rw [length_cipherBody, List.length_append, KeyPrefix.length_bytes, KEY_PREFIX_LEN]
      omega
    rw [frameOf_hCmd]
    exact List.take_append_of_le_length htwo
  have hplain (kp : KeyPrefix) :
      nivonaRc4WithMasterKey ((cipherBody (hCmd c) (kp.bytes ++ payload)).take 2) = kp.bytes := by
    rw [rc4_take_cipherBody _ _ (by simp [KEY_PREFIX_LEN])]
    exact List.take_left' rfl
  rw [Client.buildFrame_eq, Client.buildFrame_eq] at h
  have hbytes := congrArg (List.drop 3) h
  rw [hcipher, hcipher] at hbytes
  apply KeyPrefix.bytes_injective
  rw [← hplain kp, ← hplain kp', hbytes]

/-- So a request in a session is reported alike under the same key alone. -/
theorem keyPrefix_eq_of_report {m m' : Machine} (hdone : m.link.frame.handshakeDone = true)
    (hdone' : m'.link.frame.handshakeDone = true) (c : UInt8) (payload : List UInt8)
    (h : (clientStep m (.request c payload)).report =
      (clientStep m' (.request c payload)).report) :
    m.link.frame.keyPrefix = m'.link.frame.keyPrefix := by
  have hstep {n : Machine} (hn : n.link.frame.handshakeDone = true) :
      (clientStep n (.request c payload)).report.lastAd03.take 5 =
        (Client.buildFrame (hCmd c) payload n.link.frame.keyPrefix.bytes true).take 5 := by
    have hprefix : sendPrefix n.link true = n.link.frame.keyPrefix.bytes := by
      rw [sendPrefix, hn]
      rfl
    have hfive (kp : KeyPrefix) :
        5 ≤ (Client.buildFrame (hCmd c) payload kp.bytes true).length := by
      rw [Client.buildFrame_eq, length_frameOf_hCmd]
      omega
    rw [clientStep, ClientStep.event, hprefix]
    exact take_lastAd03 n (hfive _)
  apply keyPrefix_eq_of_take c payload
  rw [← hstep hdone, ← hstep hdone', h]

/-! ## Sessions -/

/-- What keeps a step from showing the key: a request needs the same key in both
runs, and no handshake request that comes to an end within the write may start
with the key of one run alone. -/
def KeyHidden (p : Machine × Machine) (a : ClientStep) : Prop :=
  match a with
  | .hello seed => NoSplit p (Client.buildHuFrame seed.1)
  | .request c payload =>
      (p.1.link.frame.handshakeDone = true →
        p.1.link.frame.keyPrefix = p.2.link.frame.keyPrefix) ∧
      NoSplit p (Client.buildFrame (hCmd c) payload (sendPrefix p.1.link true) true)
  | _ => True

section

variable {m m' : Machine} (h : m.link.SameRecord m'.link)
include h

/-- Clients with the same key, or without a session, send the same bytes. -/
theorem sendPrefix_congr (hkeys : m.link.frame.handshakeDone = true →
      m.link.frame.keyPrefix = m'.link.frame.keyPrefix) :
    sendPrefix m.link true = sendPrefix m'.link true := by
  cases hdone : m.link.frame.handshakeDone with
  | false =>
      have hdone' : m'.link.frame.handshakeDone = false := by rwa [h.handshakeDone] at hdone
      rw [sendPrefix, sendPrefix, hdone, hdone']
      rfl
  | true =>
      have hdone' : m'.link.frame.handshakeDone = true := by rwa [h.handshakeDone] at hdone
      rw [sendPrefix, sendPrefix, hdone, hdone', hkeys hdone]

/-- Connections leave the same record. -/
theorem sameRecord_gatt {g g' : Gatt} (hg : g = g') (f : Diag → Diag) :
    Link.SameRecord { m.link with diag := f m.link.diag, gatt := g }
      { m'.link with diag := f m'.link.diag, gatt := g' } := by
  obtain ⟨hdiag, -, hresults, hin, hbuf, hdone⟩ := h
  exact ⟨congrArg f hdiag, hg, hresults, hin, hbuf, hdone⟩

theorem sameRecord_connect (connHandle : UInt16) :
    (clientStep m (.connect connHandle)).link.SameRecord
      (clientStep m' (.connect connHandle)).link := by
  refine sameRecord_gatt h ?_ fun d => { d with connects := d.connects + 1 }
  rw [h.gatt]

theorem sameRecord_subscribe (attrHandle : UInt16) (curNotify : Bool) :
    (clientStep m (.subscribe attrHandle curNotify)).link.SameRecord
      (clientStep m' (.subscribe attrHandle curNotify)).link := by
  have hgatt (g : Gatt) := sameRecord_gatt h (rfl : g = g) fun d =>
    { d with subscribes := d.subscribes + 1 }
  simp only [clientStep, ClientStep.event, machineStep, nivonaGattOnSubscribe, h.gatt]
  refine iteInduction₂ (fun _ => hgatt _) fun _ => ?_
  exact iteInduction₂ (fun _ => hgatt _) fun _ => hgatt _

theorem sameRecord_disconnect :
    (clientStep m .disconnect).link.SameRecord (clientStep m' .disconnect).link := by
  have hgatt : ({ m.link.gatt with
      connHandle := BLE_HS_CONN_HANDLE_NONE, notifySubscribed := false } : Gatt) =
      { m'.link.gatt with
        connHandle := BLE_HS_CONN_HANDLE_NONE, notifySubscribed := false } := by
    rw [h.gatt]
  have hreset := sameRecord_gatt h hgatt fun d => { d with disconnects := d.disconnects + 1 }
  exact ⟨hreset.diag, hreset.gatt, hreset.notifyResults, rfl, rfl, rfl⟩

/-- A step that does not show the key leaves the same record. -/
theorem sameRecord_clientStep {a : ClientStep} (ha : KeyHidden (m, m') a) :
    (clientStep m a).link.SameRecord (clientStep m' a).link := by
  cases a with
  | connect connHandle => exact sameRecord_connect h connHandle
  | subscribe attrHandle curNotify => exact sameRecord_subscribe h attrHandle curNotify
  | hello seed => exact sameRecord_onAd03Write h ha
  | request c payload =>
      obtain ⟨hkeys, hsplit⟩ := ha
      rw [clientStep, clientStep, ClientStep.event, ClientStep.event,
        ← sendPrefix_congr h hkeys]
      exact sameRecord_onAd03Write h hsplit
  | disconnect => exact sameRecord_disconnect h

/-- The reports agree after a step and its frames exactly when it does not show
the key. -/
theorem reportsAgree_iff (a : ClientStep) :
    ReportsAgree (m, m') a ↔ KeyHidden (m, m') a := by
  have hafter (ha : KeyHidden (m, m') a) : (clientStep m a).report = (clientStep m' a).report :=
    congrArg diagGet (sameRecord_clientStep h ha).diag
  cases a with
  | connect connHandle => exact iff_of_true ⟨hafter trivial, trivial⟩ trivial
  | subscribe attrHandle curNotify => exact iff_of_true ⟨hafter trivial, trivial⟩ trivial
  | hello seed =>
      have hframes := framesAgree_iff_noSplit h (Client.buildHuFrame seed.1)
      exact ⟨fun hagree => hframes.mp hagree.2, fun ha => ⟨hafter ha, hframes.mpr ha⟩⟩
  | request c payload =>
      have hframes := framesAgree_iff_noSplit h
        (Client.buildFrame (hCmd c) payload (sendPrefix m.link true) true)
      constructor
      · rintro ⟨hreport, hagree⟩
        have hkeys (hdone : m.link.frame.handshakeDone = true) :
            m.link.frame.keyPrefix = m'.link.frame.keyPrefix :=
          keyPrefix_eq_of_report hdone (h.handshakeDone ▸ hdone) c payload hreport
        refine ⟨hkeys, hframes.mp ?_⟩
        simpa only [ClientStep.event, ← sendPrefix_congr h hkeys] using hagree
      · intro ha
        refine ⟨hafter ha, ?_⟩
        simpa only [ClientStep.event, ← sendPrefix_congr h ha.1] using hframes.mpr ha.2
  | disconnect => exact iff_of_true ⟨hafter trivial, trivial⟩ trivial

end

/-- Two runs of the same client steps that differ in the session keys print the
same after every frame exactly when no request is sent under different keys and
no handshake request starts with the key of one run alone. -/
theorem reports_agree_iff (m : Machine) (keys : ℕ → KeyPrefix) (steps : List ClientStep) :
    let m' : Machine := { m with link := { m.link with randomKeys := keys } }
    Runs.Guarded (Lockstep.step clientStep) ReportsAgree (m, m') steps ↔
      Runs.Guarded (Lockstep.step clientStep) KeyHidden (m, m') steps := by
  intro m'
  have hinit : m.link.SameRecord m'.link := ⟨rfl, rfl, rfl, rfl, rfl, rfl⟩
  exact Lockstep.guarded_iff_guarded (R := fun m m' : Machine => m.link.SameRecord m'.link)
    (fun m m' a h ha => sameRecord_clientStep (a := a) h ha)
    (fun m m' a h => reportsAgree_iff h a) hinit steps

/-- The first handshake begins a session under the key that is drawn. -/
theorem clientStep_hello {m : Machine} (hidle : m.link.frame.inFrame = false)
    (hnew : m.link.frame.handshakeDone = false) (seed : Seed) :
    (clientStep m (.hello seed)).link.frame.handshakeDone = true ∧
      (clientStep m (.hello seed)).link.frame.keyPrefix = m.link.randomKeys 0 := by
  have hfree : ¬SeedCollides (beginWrite m (Client.buildHuFrame seed.1)).link.frame seed.1 :=
    fun hcoll => absurd (hnew.symm.trans hcoll.1) Bool.false_ne_true
  have htake : (Client.buildHuFrame seed.1).take 256 = Client.buildHuFrame seed.1 := by
    apply List.take_of_length_le
    rw [buildHuFrame_eq, length_frameOf, List.length_append, seed.2, length_nivonaHuVerifier]
    decide
  obtain ⟨-, hframe⟩ := feed_hu_answered (m := beginWrite m (Client.buildHuFrame seed.1))
    hidle seed.2 hfree
  rw [clientStep, ClientStep.event, machineStep, onAd03Write_eq, htake, hframe]
  exact ⟨rfl, rfl⟩

/-- A status request after a handshake is reported differently under two keys. -/
theorem status_request_shows_key :
    ¬∀ (m : Machine) (keys : ℕ → KeyPrefix) (steps : List ClientStep),
      (Runs.run clientStep m steps).report =
        (Runs.run clientStep { m with link := { m.link with randomKeys := keys } }
          steps).report := by
  intro h
  let seed : Seed := ⟨[0xB3, 0x89, 0x00, 0x48], rfl⟩
  have hrun := h Machine.factoryFresh (fun _ => ⟨0x56, 0x79⟩) [.hello seed, .request 0x58 []]
  iterate 2 rw [Runs.run_cons, Runs.run_cons, Runs.run_nil] at hrun
  generalize hm' : ({ Machine.factoryFresh with
    link := { Machine.factoryFresh.link with randomKeys := fun _ => ⟨0x56, 0x79⟩ } } : Machine) = m'
    at hrun
  obtain ⟨hdone, hkey⟩ := clientStep_hello (m := Machine.factoryFresh) rfl rfl seed
  obtain ⟨hdone', hkey'⟩ := clientStep_hello (m := m') (by rw [← hm']; rfl) (by rw [← hm']; rfl)
    seed
  have hkeys := keyPrefix_eq_of_report hdone hdone' 0x58 [] hrun
  rw [hkey, hkey', ← hm'] at hkeys
  exact absurd hkeys (by decide)

end Nivona
