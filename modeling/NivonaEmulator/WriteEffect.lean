import NivonaEmulator.Lib.Runs
import NivonaEmulator.ResponseRoundTrip
import NivonaEmulator.System

/-!
# What an acknowledged write has done

The write handlers acknowledge without learning whether the register table had
a slot left.  A write takes effect exactly when its register has a slot or can
get one, apart from the writes that cannot be told from no register at all.
-/

namespace Nivona

/-- A request as the dispatcher gets it. -/
structure DispatchedRequest where
  cmd : Cmd
  payload : List UInt8

/-- Carry a request out. -/
def serve (m : Machine) (r : DispatchedRequest) : Machine := nivonaDispatch m r.cmd r.payload

def DispatchedRequest.hr (id : Int16) : DispatchedRequest := ⟨CMD_READ_NUMERICAL, putBe16 id⟩

def DispatchedRequest.ha (id : Int16) : DispatchedRequest := ⟨CMD_READ_ALPHA, putBe16 id⟩

def DispatchedRequest.hw (id : Int16) (v : Int32) : DispatchedRequest :=
  ⟨CMD_WRITE_NUMERICAL, putBe16 id ++ putBe32 v⟩

def DispatchedRequest.hb (id : Int16) (t : List UInt8) : DispatchedRequest :=
  ⟨CMD_WRITE_ALPHA, putBe16 id ++ t⟩

/-! ## What a client observes -/

/-- The request is answered by an ACK. -/
def Acked (m : Machine) (r : DispatchedRequest) : Prop :=
  m.link.Answers (serve m r).link CMD_ACK false []

/-- A numerical read returns the value. -/
def HrReturns (m : Machine) (id : Int16) (v : Int32) : Prop :=
  m.link.Answers (serve m (.hr id)).link CMD_READ_NUMERICAL true (putBe16 id ++ putBe32 v)

/-- An alphanumeric read returns the 64 bytes. -/
def HaReturns (m : Machine) (id : Int16) (t : List UInt8) : Prop :=
  m.link.Answers (serve m (.ha id)).link CMD_READ_ALPHA true (putBe16 id ++ t)

/-- Once acknowledged, the value is read back, and no other read has changed. -/
def NumWriteEffective (m : Machine) (id : Int16) (v : Int32) : Prop :=
  Acked m (.hw id v) →
    HrReturns (serve m (.hw id v)) id v ∧
    (∀ id' w, id' ≠ id → (HrReturns (serve m (.hw id v)) id' w ↔ HrReturns m id' w)) ∧
    ∀ id' w, HaReturns (serve m (.hw id v)) id' w ↔ HaReturns m id' w

/-- Once acknowledged, the text is read back with zeros behind it, and no other
read has changed. -/
def AlphaWriteEffective (m : Machine) (id : Int16) (t : List UInt8) : Prop :=
  Acked m (.hb id t) →
    HaReturns (serve m (.hb id t)) id (t ++ List.replicate (64 - t.length) 0) ∧
    (∀ id' w, id' ≠ id → (HaReturns (serve m (.hb id t)) id' w ↔ HaReturns m id' w)) ∧
    ∀ id' w, HrReturns (serve m (.hb id t)) id' w ↔ HrReturns m id' w

/-! ## Replies and registers -/

/-- What was sent decodes to one body only. -/
theorem Link.Answers.body_unique {l l' : Link} {cmd : Cmd} {encrypt : Bool}
    {body body' : List UInt8} (h : l.Answers l' cmd encrypt body)
    (h' : l.Answers l' cmd encrypt body') : body = body' := by
  obtain ⟨pieces, hpieces, -, hdecode⟩ := h
  obtain ⟨pieces', hpieces', -, hdecode'⟩ := h'
  have hsame : pieces = pieces' := by
    rw [hpieces] at hpieces'
    exact List.append_cancel_left hpieces'
  subst hsame
  have hbody := (hdecode 0).symm.trans (hdecode' 0)
  simpa using hbody

theorem putBe32_injective : Function.Injective putBe32 := by
  intro v w h
  have hv := Client.int32_putBe32 v
  rw [h, Client.int32_putBe32] at hv
  exact Int32.toInt_inj.mp hv.symm

/-- A numerical read reports the register. -/
theorem hrReturns_iff {m : Machine} {id : Int16} {v : Int32} :
    HrReturns m id v ↔ nivonaStoreGetNum m.core.device.toStorage id = v := by
  have h := answers_dispatch_hr m (putBe16 id ++ [])
  rw [requestId_putBe16_append, List.append_nil] at h
  constructor
  · intro hret
    have hbody := h.body_unique hret
    exact putBe32_injective (List.append_cancel_left hbody)
  · rintro rfl
    exact h

/-- An alphanumeric read reports the register, with zeros behind it. -/
theorem haReturns_iff {m : Machine} {id : Int16} {t : List UInt8} :
    HaReturns m id t ↔ zeroPadded NIVONA_ALPHA_MAX
      (nivonaStoreGetAlpha m.core.device.toStorage id NIVONA_ALPHA_MAX) = t := by
  have h := answers_dispatch_ha m (putBe16 id ++ [])
  rw [requestId_putBe16_append, List.append_nil] at h
  constructor
  · intro hret
    exact List.append_cancel_left (h.body_unique hret)
  · rintro rfl
    exact h

/-- A full-length numerical write is carried out and acknowledged. -/
theorem serve_hw (m : Machine) (id : Int16) (v : Int32) :
    Acked m (.hw id v) ∧ (serve m (.hw id v)).core =
      m.core.onStorage fun s => nivonaStoreSetNum s id v := by
  have hlen : 6 ≤ (putBe16 id ++ putBe32 v).length := by simp
  have hid : be16I (putBe16 id ++ putBe32 v) = id := be16I_putBe16_append id _
  have hv : be32I ((putBe16 id ++ putBe32 v).drop 2) = v := by
    rw [List.drop_left' (length_putBe16 id), be32I_putBe32]
  have hserve : serve m (.hw id v) = handleHw { m with link := { m.link with
      calls := m.link.calls ++ [Call.dispatch CMD_WRITE_NUMERICAL (putBe16 id ++ putBe32 v)] } }
      (putBe16 id ++ putBe32 v) := rfl
  rw [Acked, hserve, handleHw, if_pos hlen, hid, hv]
  exact ⟨(answers_sendAck _).congr (by simp) rfl, rfl⟩

/-- So is an alphanumeric write. -/
theorem serve_hb (m : Machine) (id : Int16) (t : List UInt8) :
    Acked m (.hb id t) ∧ (serve m (.hb id t)).core =
      m.core.onStorage fun s => nivonaStoreSetAlpha s id (t.take NIVONA_ALPHA_MAX) := by
  have hlen : 2 ≤ (putBe16 id ++ t).length := by simp
  have hid : be16I (putBe16 id ++ t) = id := be16I_putBe16_append id _
  have hserve : serve m (.hb id t) = handleHb { m with link := { m.link with
      calls := m.link.calls ++ [Call.dispatch CMD_WRITE_ALPHA (putBe16 id ++ t)] } }
      (putBe16 id ++ t) := rfl
  rw [Acked, hserve, handleHb, if_pos hlen, hid, List.drop_left' (length_putBe16 id)]
  exact ⟨(answers_sendAck _).congr (by simp) rfl, rfl⟩

/-! ## When a write takes effect -/

/-- The register is there or can get a slot, or 0 is written, which an absent
register reads as anyway. -/
def NumRoom (m : Machine) (id : Int16) (v : Int32) : Prop :=
  ¬m.core.device.num.FullFor id ∨ v = 0

/-- The register is there or can get a slot, or only zeros are written. -/
def AlphaRoom (m : Machine) (id : Int16) (t : List UInt8) : Prop :=
  ¬m.core.device.alpha.FullFor id ∨ ∀ b ∈ t, b = 0

theorem numWriteEffective_iff (m : Machine) (id : Int16) (v : Int32) :
    NumWriteEffective m id v ↔ NumRoom m id v := by
  obtain ⟨hack, hcore⟩ := serve_hw m id v
  have hother (id' : Int16) (w : Int32) (hid : id' ≠ id) :
      HrReturns (serve m (.hw id v)) id' w ↔ HrReturns m id' w := by
    rw [hrReturns_iff, hrReturns_iff, hcore]
    change (((m.core.device.num.put id v).get id').getD 0 = w) ↔ _
    rw [SlotTable.get_put_of_ne _ hid]
    rfl
  have halpha (id' : Int16) (w : List UInt8) :
      HaReturns (serve m (.hw id v)) id' w ↔ HaReturns m id' w := by
    rw [haReturns_iff, haReturns_iff, hcore]
    rfl
  have hself : HrReturns (serve m (.hw id v)) id v ↔ NumRoom m id v := by
    rw [hrReturns_iff, hcore, NumRoom]
    change (((m.core.device.num.put id v).get id).getD 0 = v) ↔ _
    by_cases hfull : m.core.device.num.FullFor id
    · rw [SlotTable.get_put_of_full hfull, (SlotTable.fullFor_iff.mp hfull).1]
      simp [hfull, eq_comm]
    · rw [SlotTable.get_put_self hfull]
      simp [hfull]
  rw [NumWriteEffective, hself]
  exact ⟨fun h => (h hack).1, fun hroom _ => ⟨hroom, hother, halpha⟩⟩

/-- A text of at most 64 bytes is all of what the store keeps. -/
theorem zeroPadded_of_length_le {t : List UInt8} (ht : t.length ≤ 64) :
    zeroPadded NIVONA_ALPHA_MAX t = t ++ List.replicate (64 - t.length) 0 := by
  rw [zeroPadded, NIVONA_ALPHA_MAX, List.take_of_length_le ht]

/-- Zero bytes alone look like no text at all. -/
theorem zeroPadded_nil_eq_iff {t : List UInt8} (ht : t.length ≤ 64) :
    zeroPadded NIVONA_ALPHA_MAX [] = zeroPadded NIVONA_ALPHA_MAX t ↔ ∀ b ∈ t, b = 0 := by
  rw [zeroPadded_of_length_le ht, zeroPadded_of_length_le (Nat.zero_le _), List.nil_append,
    List.length_nil, Nat.sub_zero, eq_comm, List.eq_replicate_iff]
  constructor
  · rintro ⟨-, hall⟩ b hb
    exact hall b (List.mem_append_left _ hb)
  · intro hall
    refine ⟨by simp; omega, ?_⟩
    intro b hb
    rcases List.mem_append.mp hb with hb | hb
    · exact hall b hb
    · exact List.eq_of_mem_replicate hb

theorem alphaWriteEffective_iff (m : Machine) (id : Int16) {t : List UInt8}
    (ht : t.length ≤ 64) : AlphaWriteEffective m id t ↔ AlphaRoom m id t := by
  obtain ⟨hack, hcore⟩ := serve_hb m id t
  have htake : t.take NIVONA_ALPHA_MAX = t := List.take_of_length_le ht
  have htable : (serve m (.hb id t)).core.device.alpha = m.core.device.alpha.put id t := by
    rw [hcore, htake]
    change m.core.device.alpha.put id ((t.take NIVONA_ALPHA_MAX).take NIVONA_ALPHA_MAX) = _
    rw [htake, htake]
  have hother (id' : Int16) (w : List UInt8) (hid : id' ≠ id) :
      HaReturns (serve m (.hb id t)) id' w ↔ HaReturns m id' w := by
    rw [haReturns_iff, haReturns_iff, nivonaStoreGetAlpha_eq, nivonaStoreGetAlpha_eq, htable,
      SlotTable.get_put_of_ne _ hid]
  have hnum (id' : Int16) (w : Int32) :
      HrReturns (serve m (.hb id t)) id' w ↔ HrReturns m id' w := by
    rw [hrReturns_iff, hrReturns_iff, hcore]
    rfl
  have hself : HaReturns (serve m (.hb id t)) id (t ++ List.replicate (64 - t.length) 0) ↔
      AlphaRoom m id t := by
    rw [haReturns_iff, AlphaRoom, nivonaStoreGetAlpha_eq, htable, ← zeroPadded_of_length_le ht]
    by_cases hfull : m.core.device.alpha.FullFor id
    · rw [SlotTable.get_put_of_full hfull, (SlotTable.fullFor_iff.mp hfull).1]
      simp only [hfull, not_true_eq_false, false_or]
      exact zeroPadded_nil_eq_iff ht
    · rw [SlotTable.get_put_self hfull]
      simp [hfull, htake]
  rw [AlphaWriteEffective, hself]
  exact ⟨fun h => (h hack).1, fun hroom _ => ⟨hroom, hother, hnum⟩⟩

/-! ## Filling the table -/

/-- Numerical writes load the table. -/
theorem run_serve_hw (es : List (Int16 × Int32)) (m : Machine) :
    (Runs.run serve m (es.map fun e => .hw e.1 e.2)).core.device.num =
      m.core.device.num.load es := by
  induction es generalizing m with
  | nil => rfl
  | cons e es ih =>
      have hcore := (serve_hw m e.1 e.2).2
      rw [List.map_cons, Runs.run_cons, ih, hcore]
      rfl

/-- Ids from 1000 on, with the value 1. -/
def freshWrites (n : ℕ) : List (Int16 × Int32) :=
  (List.range n).map fun i => (Int16.ofNat (1000 + i), 1)

/-- The ids are distinct as long as they are positive. -/
theorem nodup_freshWrites {n : ℕ} (hn : n ≤ 2 ^ 15 - 1000) :
    ((freshWrites n).map Prod.fst).Nodup := by
  rw [freshWrites, List.map_map]
  apply List.nodup_range.map_on
  intro i hi j hj hij
  rw [List.mem_range] at hi hj
  have hid := congrArg Int16.toInt hij
  simp only [Function.comp_apply] at hid
  rw [Int16.toInt_ofNat_of_lt (by omega), Int16.toInt_ofNat_of_lt (by omega)] at hid
  omega

/-! ## The result -/

/-- After any requests, an acknowledged write has taken effect exactly when its
register has a slot or can get one, or what is written reads like nothing. -/
theorem writes_effective_iff (env : Environment) (nvs : Nvs) (requests : List DispatchedRequest) :
    let m := Runs.run serve (Machine.boot env nvs) requests
    (∀ id v, NumWriteEffective m id v ↔ NumRoom m id v) ∧
      ∀ id t, t.length ≤ 64 → (AlphaWriteEffective m id t ↔ AlphaRoom m id t) :=
  ⟨fun id v => numWriteEffective_iff _ id v, fun id _ ht => alphaWriteEffective_iff _ id ht⟩

/-- In a new machine every request for a register finds a slot. -/
theorem writes_effective_factoryFresh :
    NumWriteEffective Machine.factoryFresh 2000 1 ∧
      AlphaWriteEffective Machine.factoryFresh 2000 [0x41] := by
  have hnum : NumRoom Machine.factoryFresh 2000 1 :=
    Or.inl (SlotTable.not_fullFor_of_size_lt (by decide +kernel) _)
  have halpha : AlphaRoom Machine.factoryFresh 2000 [0x41] :=
    Or.inl (SlotTable.not_fullFor_of_size_lt (by decide +kernel) _)
  have h := writes_effective_iff Environment.benign Nvs.empty []
  exact ⟨(h.1 2000 1).mpr hnum, (h.2 2000 [0x41] (by decide)).mpr halpha⟩

/-- With 247 registers more the table of a new machine is full, and the next
write is acknowledged and lost. -/
theorem acked_write_lost :
    ¬NumWriteEffective (Runs.run serve Machine.factoryFresh
      ((freshWrites 247).map fun e => .hw e.1 e.2)) 2000 1 := by
  have hkeys : SlotTable.keys Machine.factoryFresh.core.device.num.slots =
      [600, 610, 620, 640, 601, 611, 621, 641, 642] := by decide +kernel
  have hnodup : ((freshWrites 247).map Prod.fst).Nodup := nodup_freshWrites (by decide)
  have hlength : (freshWrites 247).length = 247 := by simp [freshWrites]
  have habsent (id : Int16) (hid : id ∉ [600, 610, 620, 640, 601, 611, 621, 641, 642]) :
      Machine.factoryFresh.core.device.num.get id = none := by
    rw [← hkeys, ← SlotTable.get_isSome_iff] at hid
    simpa using hid
  have hnew (id : Int16) (hid : id ∈ (freshWrites 247).map Prod.fst) :
      id ∉ [600, 610, 620, 640, 601, 611, 621, 641, 642] := by
    have hall : ∀ i < 247, Int16.ofNat (1000 + i) ∉
        [600, 610, 620, 640, 601, 611, 621, 641, 642] := by decide +kernel
    rw [freshWrites, List.map_map] at hid
    obtain ⟨i, hi, rfl⟩ := List.mem_map.mp hid
    exact hall i (List.mem_range.mp hi)
  rw [numWriteEffective_iff, NumRoom, not_or, not_not, SlotTable.fullFor_iff, run_serve_hw]
  refine ⟨⟨?_, ?_⟩, by decide⟩
  · rw [SlotTable.get_load_of_not_mem _ _ (by decide +kernel)]
    exact habsent 2000 (by decide)
  · rw [SlotTable.length_keys_load _ _ hnodup (fun id hid => habsent id (hnew id hid))
      (by rw [hkeys, hlength]; decide), hkeys, hlength]
    rfl

end Nivona
