import NivonaEmulator.DiagReport
import NivonaEmulator.DisReads
import NivonaEmulator.Lib.SequentialObject
import NivonaEmulator.ParserSafety
import NivonaEmulator.Subscription
import NivonaEmulator.TelnetLines

/-!
# The characteristics on their buffers

The access callbacks copy what a peer writes to arrays on the stack and to static ones
before the parser and `diag_get` read it.  Every access is checked here.  None fails,
whatever the stack held, and what peers and the diagnostic endpoint see is what the
machine, a name and a counter give.
-/

namespace Nivona

open CheckedBuffer

/-- The characteristics of `CHARS`. -/
inductive Chr
  | ad01 | ad02 | ad03 | ad04 | ad05 | ad06
  deriving DecidableEq, Repr

/-- What a callback is asked for: a value, appended to a chain that may be out of room,
the write of the bytes of a chain, or a descriptor. -/
inductive AccessOp
  | readChr (room : Bool)
  | writeChr (om : List UInt8)
  | dsc
  deriving DecidableEq, Repr

inductive AccessAnswer
  | ok (appended : List UInt8)
  | unlikely
  | insufficientRes
  deriving DecidableEq, Repr

/-- What happens to the service. `stack n` is what a local array of `n` bytes holds when
the callback is entered. -/
inductive GattStep
  | access (chr : Chr) (op : AccessOp) (stack : (n : ℕ) → Vector UInt8 n)
  | connect (connHandle : UInt16)
  | subscribe (attrHandle : UInt16) (curNotify : Bool)
  | disconnect
  | op (o : Op)
  | diagGet

inductive GattAnswer
  | access (a : AccessAnswer)
  | diag (ad01Writes : UInt32) (report : DiagReport)
  | done
  deriving DecidableEq, Repr

/-! ## The service -/

/-- What the characteristics are about: the machine, the name written last up to its
first NUL, and a counter. -/
structure PeerService where
  machine : Machine
  name : List UInt8
  ad01Writes : UInt32

namespace PeerService

def powerOn (m : Machine) : PeerService where
  machine := m
  name := []
  ad01Writes := 0

/-- The name that a peer reads. -/
def shownName (p : PeerService) : List UInt8 :=
  if p.name = [] then p.machine.link.deviceName else p.name

def access (p : PeerService) : Chr → AccessOp → PeerService × AccessAnswer
  | .ad01, .writeChr _ => ({ p with ad01Writes := p.ad01Writes + 1 }, .ok [])
  | .ad03, .writeChr om => ({ p with machine := onAd03Write p.machine om }, .ok [])
  | .ad06, .readChr room => (p, if room then .ok p.shownName else .insufficientRes)
  | .ad06, .writeChr om => ({ p with name := (om.take 31).takeWhile (· ≠ 0) }, .ok [])
  | .ad02, _ | .ad04, _ | .ad05, _ => (p, .ok [])
  | _, _ => (p, .unlikely)

def step (p : PeerService) : GattStep → PeerService × GattAnswer
  | .access chr op _ => ((p.access chr op).1, .access (p.access chr op).2)
  | .connect connHandle =>
      ({ p with machine := machineStep p.machine (.connect connHandle) }, .done)
  | .subscribe attrHandle curNotify =>
      ({ p with machine := machineStep p.machine (.subscribe attrHandle curNotify) }, .done)
  | .disconnect => ({ p with machine := machineStep p.machine .disconnect }, .done)
  | .op (.reboot it) => (powerOn (p.machine.restart it), .done)
  | .op o => ({ p with machine := machineOp p.machine o }, .done)
  | .diagGet => (p, .diag p.ad01Writes p.machine.report)

end PeerService

/-! ## The callbacks -/

/-- The static arrays of the service, and the parser with its own. -/
structure GattServer where
  parser : RawParser
  lastAd03 : Vector UInt8 64
  ad06Name : Vector UInt8 32
  ad01Writes : UInt32

namespace GattServer

def powerOn (m : Machine) : GattServer where
  parser := RawParser.boot m
  lastAd03 := Vector.replicate 64 0
  ad06Name := Vector.replicate 32 0
  ad01Writes := 0

/-- `ble_hs_mbuf_to_flat` -/
def mbufToFlat {n : ℕ} (om : List UInt8) (flat : Vector UInt8 n) (maxLen : ℕ) :
    Option (Vector UInt8 n) :=
  copyTo flat 0 (om.take maxLen)

def onAd01Write (s : GattServer) (op : AccessOp) (stack : (n : ℕ) → Vector UInt8 n) :
    Option (GattServer × AccessAnswer) :=
  match op with
  | .writeChr om => do
      let len := if 128 < om.length then 128 else om.length
      let _ ← mbufToFlat om (stack 128) len
      some ({ s with ad01Writes := s.ad01Writes + 1 }, .ok [])
  | _ => some (s, .unlikely)

/-- The record of the write that the machine keeps follows the array. -/
def onAd03Write (s : GattServer) (op : AccessOp) (stack : (n : ℕ) → Vector UInt8 n) :
    Option (GattServer × AccessAnswer) :=
  match op with
  | .writeChr om => do
      let len := if 256 < om.length then 256 else om.length
      let buf ← mbufToFlat om (stack 256) len
      let captured ← slice buf 0 (if len < 64 then len else 64)
      let lastAd03 ← copyTo s.lastAd03 0 captured
      let parser := s.parser.onDiag fun d =>
        { d with
          ad03Writes := d.ad03Writes + 1
          lastAd03Len := UInt32.ofNat len
          lastAd03 := lastAd03.toList.take len }
      let data ← slice buf 0 len
      let parser ← parser.feed data
      some ({ s with lastAd03 := lastAd03, parser := parser }, .ok [])
  | _ => some (s, .unlikely)

def onAd06Access (s : GattServer) : AccessOp → Option (GattServer × AccessAnswer)
  | .readChr room => do
      let first ← load s.ad06Name 0
      let name ← if first ≠ 0 then do
          let len ← strlenFrom s.ad06Name 0 33
          slice s.ad06Name 0 len
        -- `strlen` of the name that the stack keeps
        else some (s.parser.machine.link.deviceName.takeWhile (· ≠ 0))
      some (s, if room then .ok name else .insufficientRes)
  | .writeChr om => do
      let len := if 32 ≤ om.length then 31 else om.length
      let name ← mbufToFlat om s.ad06Name len
      let name ← store name len 0
      some ({ s with ad06Name := name }, .ok [])
  | .dsc => some (s, .unlikely)

def onAd0xStub (s : GattServer) : Option (GattServer × AccessAnswer) := some (s, .ok [])

/-- `access_cb` of the characteristic. -/
def accessCb (s : GattServer) (chr : Chr) (op : AccessOp) (stack : (n : ℕ) → Vector UInt8 n) :
    Option (GattServer × AccessAnswer) :=
  match chr with
  | .ad01 => s.onAd01Write op stack
  | .ad03 => s.onAd03Write op stack
  | .ad06 => s.onAd06Access op
  | .ad02 | .ad04 | .ad05 => s.onAd0xStub

/-- The captures that `diag_get` prints, read from their arrays. -/
def diagGet (s : GattServer) : Option DiagReport := do
  let d := s.parser.machine.link.diag
  let lastAd03 ← slice s.lastAd03 0 (min d.lastAd03Len.toNat 32)
  let lastDecrypt ← slice s.parser.lastDecrypt 0 (min s.parser.lastDecryptLen 32)
  some { Nivona.diagGet d with lastAd03 := lastAd03, lastDecrypt := lastDecrypt }

/-- The rest of the program leaves the arrays of the service alone. -/
def elsewhere (s : GattServer) (m : Machine) : GattServer :=
  { s with parser := { s.parser with machine := m } }

/-- `nivona_gatt_on_disconnect` with the reset of the parser at its end. -/
def onDisconnect (s : GattServer) : GattServer :=
  { s with parser := { s.parser with
      machine := { s.parser.machine with
        link := nivonaGattOnDisconnect s.parser.machine.link }
      len := 0
      inFrame := false } }

def step (s : GattServer) : GattStep → Option (GattServer × GattAnswer)
  | .access chr op stack => do
      let (s, a) ← s.accessCb chr op stack
      some (s, .access a)
  | .connect connHandle =>
      some (s.elsewhere (machineStep s.parser.view (.connect connHandle)), .done)
  | .subscribe attrHandle curNotify =>
      some (s.elsewhere (machineStep s.parser.view (.subscribe attrHandle curNotify)), .done)
  | .disconnect => some (s.onDisconnect, .done)
  | .op (.reboot it) => some (powerOn (s.parser.view.restart it), .done)
  | .op o => some (s.elsewhere (machineOp s.parser.view o), .done)
  | .diagGet => do
      let report ← s.diagGet
      some (s, .diag s.ad01Writes report)

/-- The service that the arrays hold. -/
def view (s : GattServer) : PeerService where
  machine := s.parser.view
  name := s.ad06Name.toList.takeWhile (· ≠ 0)
  ad01Writes := s.ad01Writes

end GattServer

/-! ## Plain device names -/

/-- A name without a NUL. -/
def Plain (text : List UInt8) : Prop := ∀ c ∈ text, c ≠ 0

theorem plain_bleName (f : FamilyId) : Plain (bytesOf (familyRow f).bleName) := by
  have hrows : ∀ f : FamilyId, ∀ c ∈ bytesOf (familyRow f).bleName, c ≠ 0 := by decide +kernel
  exact hrows f

/-- An operation other than a restart leaves the link alone, pushes the status, or
renames the device after a family. -/
theorem machineOp_link (m : Machine) {o : Op} (ho : o.keepsLink = true) :
    (machineOp m o).link = m.link ∨
      (∃ c, (machineOp m o).link =
        nivonaFrameSend m.link CMD_READ_STATUS (nivonaFsmPackStatus c) false true) ∨
      ∃ f : FamilyId, (machineOp m o).link =
        { m.link with deviceName := bytesOf (familyRow f).bleName } := by
  have htask (r : Core × Bool) : (m.afterTask r).link = m.link ∨
      ∃ c, (m.afterTask r).link =
        nivonaFrameSend m.link CMD_READ_STATUS (nivonaFsmPackStatus c) false true := by
    rw [Machine.afterTask]
    split
    · exact .inr ⟨r.1.status, rfl⟩
    · exact .inl rfl
  cases o with
  | reboot it => exact absurd ho Bool.false_ne_true
  | brewTask i => exact (htask (brewTask m.core i)).imp id .inl
  | cycleTask i => exact (htask (cycleTask m.core i)).imp id .inl
  | familyCli key =>
      rw [machineOp]
      dsimp only
      cases nivonaFamilyFind key with
      | none => exact .inl rfl
      | some f => exact .inr (.inr ⟨f, rfl⟩)
  | _ => exact .inl rfl

namespace RawParser

/-- The machine may change in any way that leaves the variables of the parser alone. -/
theorem view_elsewhere (r : RawParser) {m : Machine} (h : r.view.link.KeepsParser m.link) :
    { r with machine := m }.view = m := by
  obtain ⟨hbuf, hin, hcapture⟩ := h
  obtain ⟨core, link⟩ := m
  obtain ⟨frame, gatt, diag⟩ := link
  obtain ⟨buf, hlen, inFrame, handshakeDone, keyPrefix⟩ := frame
  simp only [view, Frame.withBuf] at hbuf hin hcapture ⊢
  subst hbuf hin
  rw [← hcapture]

end RawParser

namespace GattServer

/-! ## Between callbacks -/

/-- The record of the last write is what the array holds of it. -/
def Captured (lastAd03 : Vector UInt8 64) (d : Diag) : Prop :=
  d.lastAd03 = lastAd03.toList.take d.lastAd03Len.toNat

/-- What holds of the arrays between callbacks. -/
structure Ok (s : GattServer) : Prop where
  parser : s.parser.Bounded
  captured : Captured s.lastAd03 s.parser.view.link.diag
  terminated : s.ad06Name[31] = 0
  plain : Plain s.parser.view.link.deviceName

/-- Writes that keep their record keep it in step with the array. -/
theorem Captured.of_sameWrite {lastAd03 : Vector UInt8 64} {d d' : Diag}
    (h : Captured lastAd03 d) (hsame : d.SameWrite d') : Captured lastAd03 d' := by
  obtain ⟨hlen, hbytes⟩ := hsame
  rw [Captured, hlen, hbytes]
  exact h

theorem ok_powerOn {m : Machine} (hview : (RawParser.boot m).view = m)
    (hlast : m.link.diag.lastAd03 = []) (hlen : m.link.diag.lastAd03Len = 0)
    (hname : Plain m.link.deviceName) : (powerOn m).Ok where
  parser := RawParser.bounded_idle rfl rfl
  captured := by
    rw [powerOn, hview, Captured, hlast, hlen]
    rfl
  terminated := rfl
  plain := by
    rw [powerOn, hview]
    exact hname

section

variable {s : GattServer} (h : s.Ok)
include h

theorem Ok.elsewhere {m : Machine} (hkeeps : s.parser.view.link.KeepsParser m.link)
    (hsame : s.parser.view.link.diag.SameWrite m.link.diag) (hname : Plain m.link.deviceName) :
    (s.elsewhere m).Ok ∧ (s.elsewhere m).view = { s.view with machine := m } := by
  have hview := s.parser.view_elsewhere hkeeps
  constructor
  · exact {
      parser := ⟨h.parser.inFrame, h.parser.len, h.parser.start, h.parser.size⟩
      captured := by
        rw [GattServer.elsewhere, hview]
        exact h.captured.of_sameWrite hsame
      terminated := h.terminated
      plain := by
        rw [GattServer.elsewhere, hview]
        exact hname }
  · rw [GattServer.view, GattServer.elsewhere, hview]
    rfl

theorem Ok.op {o : Op} (ho : o.keepsLink = true) :
    (s.elsewhere (machineOp s.parser.view o)).Ok ∧
      (s.elsewhere (machineOp s.parser.view o)).view =
        { s.view with machine := machineOp s.parser.view o } := by
  rcases machineOp_link s.parser.view ho with hlink | ⟨c, hlink⟩ | ⟨f, hlink⟩
  · refine h.elsewhere ?_ ?_ ?_
    · rw [hlink]
      exact ⟨rfl, rfl, rfl⟩
    · rw [hlink]
      exact ⟨rfl, rfl⟩
    · rw [hlink]
      exact h.plain
  · refine h.elsewhere ?_ ?_ ?_
    · rw [hlink]
      exact .send _ _ _ _ _
    · rw [hlink]
      exact sameWriteRule.send _ _ _ _ _
    · rw [hlink, (repliesRule.send _ _ _ _ _).deviceName]
      exact h.plain
  · refine h.elsewhere ?_ ?_ ?_
    · rw [hlink]
      exact ⟨rfl, rfl, rfl⟩
    · rw [hlink]
      exact ⟨rfl, rfl⟩
    · rw [hlink]
      exact plain_bleName f

theorem Ok.connect (connHandle : UInt16) :
    (s.elsewhere (machineStep s.parser.view (.connect connHandle))).Ok ∧
      (s.elsewhere (machineStep s.parser.view (.connect connHandle))).view =
        { s.view with machine := machineStep s.parser.view (.connect connHandle) } :=
  h.elsewhere ⟨rfl, rfl, rfl⟩ ⟨rfl, rfl⟩ h.plain

theorem Ok.subscribe (attrHandle : UInt16) (curNotify : Bool) :
    (s.elsewhere (machineStep s.parser.view (.subscribe attrHandle curNotify))).Ok ∧
      (s.elsewhere (machineStep s.parser.view (.subscribe attrHandle curNotify))).view =
        { s.view with
          machine := machineStep s.parser.view (.subscribe attrHandle curNotify) } := by
  have hlink : ∃ g : Gatt, (machineStep s.parser.view (.subscribe attrHandle curNotify)).link =
      { s.parser.view.link with
        diag := { s.parser.view.link.diag with
          subscribes := s.parser.view.link.diag.subscribes + 1 }
        gatt := g } := by
    simp only [machineStep, nivonaGattOnSubscribe]
    split
    · exact ⟨_, rfl⟩
    · split
      · exact ⟨_, rfl⟩
      · exact ⟨_, rfl⟩
  obtain ⟨g, hlink⟩ := hlink
  refine h.elsewhere ?_ ?_ ?_
  · rw [hlink]
    exact ⟨rfl, rfl, rfl⟩
  · rw [hlink]
    exact ⟨rfl, rfl⟩
  · rw [hlink]
    exact h.plain

theorem Ok.disconnect : s.onDisconnect.Ok ∧
    s.onDisconnect.view = { s.view with machine := machineStep s.parser.view .disconnect } :=
  ⟨⟨RawParser.bounded_idle rfl rfl, h.captured, h.terminated, h.plain⟩, rfl⟩

/-! ## Writes -/

omit h in
/-- What a callback has copied from a chain that is cut to the size of its array. -/
theorem mbufToFlat_eq {n : ℕ} (om : List UInt8) (flat : Vector UInt8 n) :
    ∃ buf, mbufToFlat om flat (if n < om.length then n else om.length) = some buf ∧
      ∀ k ≤ (om.take n).length, slice buf 0 k = some ((om.take n).take k) := by
  obtain ⟨buf, hcopy, rest, hlist⟩ := copyTo_start flat (List.length_take_le n om)
  refine ⟨buf, ?_, ?_⟩
  · rw [mbufToFlat, take_cut]
    exact hcopy
  · intro k hk
    have hroom := List.length_take_le n om
    rw [slice_eq (by omega), List.drop_zero, hlist, List.take_append_of_le_length hk]

omit h in
theorem onAd01Write_eq (om : List UInt8) (stack : (n : ℕ) → Vector UInt8 n) :
    s.onAd01Write (.writeChr om) stack =
      some ({ s with ad01Writes := s.ad01Writes + 1 }, .ok []) := by
  obtain ⟨buf, hbuf, -⟩ := mbufToFlat_eq om (stack 128)
  simp only [GattServer.onAd01Write]
  rw [hbuf]
  rfl

/-- The parser is fed what has been captured and copied. -/
theorem Ok.fed {om : List UInt8} {lastAd03 : Vector UInt8 64}
    (hlast : lastAd03.toList.take (om.take 256).length = (om.take 256).take 64) :
    ∃ parser, (s.parser.onDiag fun d =>
        { d with
          ad03Writes := d.ad03Writes + 1
          lastAd03Len := UInt32.ofNat (om.take 256).length
          lastAd03 := lastAd03.toList.take (om.take 256).length }).feed (om.take 256) =
        some parser ∧
      ({ s with lastAd03 := lastAd03, parser := parser } : GattServer).Ok ∧
      parser.view = Nivona.onAd03Write s.parser.view om := by
  rw [hlast]
  obtain ⟨parser, hfeed, hbounded, hview⟩ := RawParser.feed_view
    (r := s.parser.onDiag fun d =>
      { d with
        ad03Writes := d.ad03Writes + 1
        lastAd03Len := UInt32.ofNat (om.take 256).length
        lastAd03 := (om.take 256).take 64 })
    ⟨h.parser.inFrame, h.parser.len, h.parser.start, h.parser.size⟩ (om.take 256)
  have hwritten : parser.view = Nivona.onAd03Write s.parser.view om := hview
  have hsize : (UInt32.ofNat (om.take 256).length).toNat = (om.take 256).length :=
    UInt32.toNat_ofNat_of_lt' ((List.length_take_le _ _).trans_lt (by decide))
  have hbegin : Captured lastAd03 (beginWrite s.parser.view om).link.diag := by
    have hlen : (beginWrite s.parser.view om).link.diag.lastAd03Len.toNat =
        (om.take 256).length := hsize
    rw [Captured, hlen, hlast]
    rfl
  refine ⟨parser, hfeed, ⟨hbounded, ?_, h.terminated, ?_⟩, hwritten⟩
  · rw [hwritten]
    exact hbegin.of_sameWrite (sameWrite_onAd03Write _ _)
  · rw [hwritten, (replies_onAd03Write _ _).deviceName]
    exact h.plain

/-- A write of AD03 does to the machine what it does to a machine without buffers. -/
theorem onAd03Write_eq (om : List UInt8) (stack : (n : ℕ) → Vector UInt8 n) :
    ∃ s', s.onAd03Write (.writeChr om) stack = some (s', .ok []) ∧ s'.Ok ∧
      s'.view = { s.view with machine := Nivona.onAd03Write s.parser.view om } := by
  obtain ⟨buf, hbuf, hread⟩ := mbufToFlat_eq om (stack 256)
  obtain ⟨lastAd03, hcopy, hlast⟩ := copyTo_take s.lastAd03 (om.take 256)
  obtain ⟨parser, hfeed, hok, hview⟩ := h.fed hlast
  have hcaptured : slice buf 0 (if (om.take 256).length < 64 then (om.take 256).length else 64) =
      some ((om.take 256).take 64) := by
    have hcut : (if (om.take 256).length < 64 then (om.take 256).length else 64) =
        min 64 (om.take 256).length := by
      split <;> omega
    rw [hcut, hread _ (Nat.min_le_right _ _), ← List.take_eq_take_min]
  have hdata : slice buf 0 (om.take 256).length = some (om.take 256) := by
    rw [hread _ le_rfl, List.take_length]
  refine ⟨{ s with lastAd03 := lastAd03, parser := parser }, ?_, hok, ?_⟩
  · simp only [GattServer.onAd03Write]
    rw [hbuf, ← length_take_cut, Option.bind_eq_bind, Option.bind_some, hcaptured,
      Option.bind_eq_bind, Option.bind_some, hcopy, Option.bind_eq_bind, Option.bind_some, hdata,
      Option.bind_eq_bind, Option.bind_some, hfeed]
    rfl
  · rw [GattServer.view, hview]
    rfl

/-- A write of AD06 stores the name up to its first NUL. -/
theorem onAd06Access_write (om : List UInt8) :
    ∃ s', s.onAd06Access (.writeChr om) = some (s', .ok []) ∧ s'.Ok ∧
      s'.view = { s.view with name := (om.take 31).takeWhile (· ≠ 0) } := by
  have hcut : (if 32 ≤ om.length then 31 else om.length) = (om.take 31).length :=
    (length_take_cut om 31).symm
  have hlen : (om.take 31).length ≤ 31 := List.length_take_le _ _
  have htake : om.take (om.take 31).length = om.take 31 := by
    rw [List.length_take, ← List.take_eq_take_min]
  obtain ⟨name, hcopy, hlist⟩ := copyTo_eq s.ad06Name
    (show 0 + (om.take 31).length ≤ 32 by omega)
  rw [List.take_zero, List.nil_append, Nat.zero_add] at hlist
  have hindex : (om.take 31).length < 32 := by omega
  have hstore : store name (om.take 31).length 0 = some (name.set (om.take 31).length 0) :=
    store_eq hindex 0
  have hroom : (om.take 31).length < s.ad06Name.toList.length := by
    rw [Vector.length_toList]
    omega
  have htext : (name.set (om.take 31).length 0).toList.takeWhile (· ≠ 0) =
      (om.take 31).takeWhile (· ≠ 0) := by
    rw [Vector.toList_set, hlist, List.set_append_right _ _ le_rfl, Nat.sub_self,
      List.drop_eq_getElem_cons hroom, List.set_cons_zero, takeWhile_append_zero]
  have hend : (name.set (om.take 31).length 0)[31] = 0 := by
    by_cases hfull : (om.take 31).length = 31
    · simp only [hfull, Vector.getElem_set_self]
    · have hlast : name[31] = s.ad06Name[31] := by
        have hname : name.toList[31]? = s.ad06Name.toList[31]? := by
          rw [hlist, List.getElem?_append_right (by omega), List.getElem?_drop]
          congr 1
          omega
        simpa using hname
      rw [Vector.getElem_set_ne _ _ hfull, hlast, h.terminated]
  refine ⟨{ s with ad06Name := name.set (om.take 31).length 0 }, ?_, ?_, ?_⟩
  · simp only [onAd06Access]
    rw [hcut, mbufToFlat, htake, hcopy, Option.bind_eq_bind, Option.bind_some, hstore]
    rfl
  · exact ⟨h.parser, h.captured, hend, h.plain⟩
  · rw [GattServer.view, htext]
    rfl

/-! ## Reads -/

/-- A read of AD06 shows the name written last, or that of the device. -/
theorem onAd06Access_read (room : Bool) :
    s.onAd06Access (.readChr room) =
      some (s, if room then .ok s.view.shownName else .insufficientRes) := by
  have hload : load s.ad06Name 0 = some s.ad06Name[0] := load_eq (by decide)
  have hcons : s.ad06Name.toList = s.ad06Name[0] :: s.ad06Name.toList.drop 1 := by
    rw [← List.drop_zero (l := s.ad06Name.toList), List.drop_eq_getElem_cons (by simp)]
    simp
  simp only [onAd06Access]
  rw [hload, Option.bind_eq_bind, Option.bind_some]
  by_cases hfirst : s.ad06Name[0] = 0
  · have hname : s.view.name = [] := by
      rw [GattServer.view, hcons, hfirst]
      rfl
    have hplain : s.parser.machine.link.deviceName.takeWhile (· ≠ 0) =
        s.parser.machine.link.deviceName := by
      rw [List.takeWhile_eq_self_iff]
      exact fun c hc => decide_eq_true (h.plain c hc)
    rw [if_neg (not_not.mpr hfirst), PeerService.shownName, if_pos hname, hplain]
    rfl
  · have hname : s.view.name ≠ [] := by
      rw [GattServer.view, hcons, List.takeWhile_cons_of_pos (by simpa using hfirst)]
      exact List.cons_ne_nil _ _
    have hstrlen := strlenFrom_eq (show 31 < 32 by decide) h.terminated 0 33 (by omega) (by omega)
    rw [Nat.zero_add, List.drop_zero] at hstrlen
    have hprefix := List.takeWhile_prefix (l := s.ad06Name.toList) (· ≠ 0)
    have hfit := hprefix.length_le
    rw [Vector.length_toList] at hfit
    rw [if_pos hfirst, hstrlen, Option.bind_eq_bind, Option.bind_some, slice_eq (by omega),
      List.drop_zero, ← List.prefix_iff_eq_take.mp hprefix, PeerService.shownName, if_neg hname]
    rfl

/-- `diag_get` prints no byte of an earlier write. -/
theorem diagGet_eq : s.diagGet = some s.view.machine.report := by
  have hlast : slice s.lastAd03 0 (min s.parser.machine.link.diag.lastAd03Len.toNat 32) =
      some (s.lastAd03.toList.take (min s.parser.machine.link.diag.lastAd03Len.toNat 32)) := by
    rw [slice_eq (by omega), List.drop_zero]
  have hdecrypt : slice s.parser.lastDecrypt 0 (min s.parser.lastDecryptLen 32) =
      some (s.parser.lastDecrypt.toList.take (min s.parser.lastDecryptLen 32)) := by
    rw [slice_eq (by omega), List.drop_zero]
  have hshown : s.lastAd03.toList.take (min s.parser.machine.link.diag.lastAd03Len.toNat 32) =
      (s.parser.machine.link.diag.lastAd03.take
        s.parser.machine.link.diag.lastAd03Len.toNat).take 32 := by
    have hrecord : s.parser.machine.link.diag.lastAd03 =
        s.lastAd03.toList.take s.parser.machine.link.diag.lastAd03Len.toNat := h.captured
    rw [hrecord, List.take_take, List.take_take]
    congr 1
    omega
  simp only [GattServer.diagGet]
  rw [hlast, Option.bind_eq_bind, Option.bind_some, hdecrypt, Option.bind_some, hshown,
    Nat.min_comm s.parser.lastDecryptLen, ← List.take_take]
  rfl

/-! ## Runs -/

theorem accessCb_eq (chr : Chr) (op : AccessOp) (stack : (n : ℕ) → Vector UInt8 n) :
    ∃ s', s.accessCb chr op stack = some (s', (s.view.access chr op).2) ∧ s'.Ok ∧
      s'.view = (s.view.access chr op).1 := by
  cases chr with
  | ad01 =>
      cases op with
      | writeChr om =>
          exact ⟨_, onAd01Write_eq om stack, ⟨h.parser, h.captured, h.terminated, h.plain⟩, rfl⟩
      | readChr room => exact ⟨s, rfl, h, rfl⟩
      | dsc => exact ⟨s, rfl, h, rfl⟩
  | ad03 =>
      cases op with
      | writeChr om => exact onAd03Write_eq h om stack
      | readChr room => exact ⟨s, rfl, h, rfl⟩
      | dsc => exact ⟨s, rfl, h, rfl⟩
  | ad06 =>
      cases op with
      | writeChr om => exact onAd06Access_write h om
      | readChr room => exact ⟨s, onAd06Access_read h room, h, rfl⟩
      | dsc => exact ⟨s, rfl, h, rfl⟩
  | ad02 => exact ⟨s, rfl, h, rfl⟩
  | ad04 => exact ⟨s, rfl, h, rfl⟩
  | ad05 => exact ⟨s, rfl, h, rfl⟩

/-- Every step stays inside the arrays and answers as the service does. -/
theorem step_eq (a : GattStep) :
    ∃ s', s.step a = some (s', (s.view.step a).2) ∧ s'.Ok ∧ s'.view = (s.view.step a).1 := by
  cases a with
  | access chr op stack =>
      obtain ⟨s', hcall, hok, hview⟩ := accessCb_eq h chr op stack
      refine ⟨s', ?_, hok, hview⟩
      rw [GattServer.step, hcall]
      rfl
  | connect connHandle => exact ⟨_, rfl, h.connect connHandle⟩
  | subscribe attrHandle curNotify => exact ⟨_, rfl, h.subscribe attrHandle curNotify⟩
  | disconnect => exact ⟨_, rfl, h.disconnect⟩
  | op o =>
      cases o with
      | reboot it =>
          refine ⟨_, rfl, ok_powerOn rfl rfl rfl ?_, rfl⟩
          exact plain_bleName _
      | _ => exact ⟨_, rfl, h.op rfl⟩
  | diagGet =>
      refine ⟨s, ?_, h, rfl⟩
      rw [GattServer.step, diagGet_eq h]
      rfl

end

end GattServer

/-- No sequence of accesses, connections, reports, operations and restarts makes a
callback leave its arrays, whatever the stack holds; peers and reports are answered as the
machine, the name written last and the counter of AD01 answer them. -/
theorem gatt_serves (env : Environment) (nvs : Nvs) (steps : List GattStep) :
    let served := SequentialObject.perform PeerService.step
      (PeerService.powerOn (Machine.boot env nvs)) steps
    ∃ s, SequentialObject.attempt GattServer.step
        (GattServer.powerOn (Machine.boot env nvs)) steps = some (s, served.2) ∧
      s.view = served.1 := by
  have hok : (GattServer.powerOn (Machine.boot env nvs)).Ok :=
    GattServer.ok_powerOn rfl rfl rfl (plain_bleName _)
  have hstep (s : GattServer) (a : GattStep) (hs : s.Ok) :
      ∃ s', s.step a = some (s', (PeerService.step s.view a).2) ∧ s'.Ok ∧
        s'.view = (PeerService.step s.view a).1 :=
    GattServer.step_eq hs a
  obtain ⟨s, hrun, -, hview⟩ := SequentialObject.attempt_eq hstep hok steps
  exact ⟨s, hrun, hview⟩

end Nivona
