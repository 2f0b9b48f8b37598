import NivonaEmulator.MachineRun
import NivonaEmulator.StoreMirror
import NivonaEmulator.WriteEffect

/-!
# Resetting a register to its default

The reset request erases the register, and the defaults are written at boot.
What is read afterwards is the default exactly for the registers whose default
is what an absent register reads as.
-/

namespace Nivona

/-- The request to reset a register, with anything behind the id. -/
def DispatchedRequest.hd (id : Int16) (rest : List UInt8) : DispatchedRequest :=
  ⟨CMD_RESET_DEFAULT, putBe16 id ++ rest⟩

/-- The machine with the store of a first boot, for its current family. -/
def Machine.withFreshStore (it : NvsIterator) (m : Machine) : Machine :=
  { m with core := m.core.onStorage fun _ => nivonaStoreInit it m.core.stats Nvs.empty }

/-- Events that write no numerical register. -/
def NoNumWrites : Machine → List Event → Prop :=
  Runs.Guarded machineStep fun m e => (machineStep m e).core.device.num = m.core.device.num

/-- Once acknowledged, and as long as nothing is written, the register reads as in a fresh
store, and no other read has changed. -/
def HdRestoresDefault (it : NvsIterator) (m : Machine) (id : Int16) (rest : List UInt8) : Prop :=
  Acked m (.hd id rest) →
    ∀ between, NoNumWrites (serve m (.hd id rest)) between →
      (∀ v, HrReturns (Runs.run machineStep (serve m (.hd id rest)) between) id v ↔
        HrReturns (m.withFreshStore it) id v) ∧
      ∀ id' v, id' ≠ id →
        (HrReturns (Runs.run machineStep (serve m (.hd id rest)) between) id' v ↔
          HrReturns m id' v)

/-- A reset is carried out and acknowledged. -/
theorem serve_hd (m : Machine) (id : Int16) (rest : List UInt8) :
    Acked m (.hd id rest) ∧ (serve m (.hd id rest)).core =
      m.core.onStorage fun s => nivonaStoreEraseNum s id := by
  have hlen : 2 ≤ (putBe16 id ++ rest).length := by simp
  have hid : be16I (putBe16 id ++ rest) = id := be16I_putBe16_append id _
  have hserve : serve m (.hd id rest) = handleHd { m with link := { m.link with
      calls := m.link.calls ++ [Call.dispatch CMD_RESET_DEFAULT (putBe16 id ++ rest)] } }
      (putBe16 id ++ rest) := rfl
  rw [Acked, hserve, handleHd, if_pos hlen, hid]
  exact ⟨(answers_sendAck _).congr (by simp) rfl, rfl⟩

theorem num_run_of_noNumWrites {m : Machine} {between : List Event} (h : NoNumWrites m between) :
    (Runs.run machineStep m between).core.device.num = m.core.device.num := by
  refine h.invariant (P := fun m' : Machine => m'.core.device.num = m.core.device.num) ?_ rfl
  intro m' e hm' he
  exact he.trans hm'

/-- What a register reads as on a fresh store. -/
theorem nivonaStoreGetNum_fresh (it : NvsIterator) (f : FamilyId) (id : Int16) :
    nivonaStoreGetNum (nivonaStoreInit it (nivonaStatsCurrent f) Nvs.empty) id =
      if id ∈ PCT_IDS then 100 else 0 := by
  let stats := nivonaStatsCurrent f
  let loaded := seedProfiles (nvsLoadAll it (Storage.blank Nvs.empty))
  have hempty : loaded.num.get id = none := by
    rw [(seedProfiles_num _).1, nvsLoadAll_blank]
    rfl
  have hfit : SeedsFit it stats Nvs.empty := seedsFit_of_num_none it stats rfl
  have hnodup : ((numSeeds stats).map Prod.fst).Nodup := nodup_numSeeds f
  change ((nivonaStoreInit it stats Nvs.empty).num.get id).getD 0 = _
  rw [nivonaStoreInit_eq]
  by_cases hid : id ∈ (numSeeds stats).map Prod.fst
  · obtain ⟨e, he, rfl⟩ := List.mem_map.mp hid
    rw [get_seedNums_of_mem hempty he hnodup hfit]
    exact numSeeds_value he
  · have hpct : id ∉ PCT_IDS := by
      intro hmem
      apply hid
      rw [numSeeds, List.map_append, List.map_append, List.mem_append, List.mem_append]
      left
      left
      simpa using hmem
    rw [get_seedNums_of_none _ hid hempty, if_neg hpct]
    rfl

/-- A reset gives the default back exactly for the registers that are not percentages. -/
theorem hdRestoresDefault_iff (it : NvsIterator) (m : Machine) (id : Int16) (rest : List UInt8) :
    HdRestoresDefault it m id rest ↔ id ∉ PCT_IDS := by
  obtain ⟨hack, hcore⟩ := serve_hd m id rest
  have hfresh (v : Int32) : HrReturns (m.withFreshStore it) id v ↔
      (if id ∈ PCT_IDS then (100 : Int32) else 0) = v := by
    rw [hrReturns_iff, ← nivonaStoreGetNum_fresh it m.core.device.family id]
    rfl
  have hself (between : List Event) (hquiet : NoNumWrites (serve m (.hd id rest)) between)
      (v : Int32) :
      HrReturns (Runs.run machineStep (serve m (.hd id rest)) between) id v ↔ 0 = v := by
    rw [hrReturns_iff]
    change (((Runs.run machineStep _ between).core.device.num.get id).getD 0 = v) ↔ _
    rw [num_run_of_noNumWrites hquiet, hcore]
    change (((m.core.device.num.remove id).get id).getD 0 = v) ↔ _
    rw [SlotTable.get_remove_self]
    rfl
  constructor
  · intro h hid
    have hreads := ((h hack [] trivial).1 100).mpr ((hfresh 100).mpr (if_pos hid))
    exact absurd ((hself [] trivial 100).mp hreads) (by decide)
  · intro hid _ between hquiet
    refine ⟨fun v => ?_, fun id' v hne => ?_⟩
    · rw [hself between hquiet v, hfresh v, if_neg hid]
    · rw [hrReturns_iff, hrReturns_iff]
      change (((Runs.run machineStep _ between).core.device.num.get id').getD 0 = v) ↔ _
      rw [num_run_of_noNumWrites hquiet, hcore]
      change (((m.core.device.num.remove id).get id').getD 0 = v) ↔ _
      rw [SlotTable.get_remove_of_ne _ hne]
      rfl

/-- After any events, the reset of a register gives its default back exactly when the register
is not one of the percentages. -/
theorem hd_restores_default_iff (env : Environment) (nvs : Nvs) (events : List Event)
    (it : NvsIterator) (id : Int16) (rest : List UInt8) :
    HdRestoresDefault it (Runs.run machineStep (Machine.boot env nvs) events) id rest ↔
      id ∉ PCT_IDS :=
  hdRestoresDefault_iff it _ id rest

/-- On a new machine the reset of the descaling gauge leaves it at 0. -/
theorem hd_loses_percentage :
    ¬HdRestoresDefault NvsIterator.storageOrder Machine.factoryFresh 600 [] := by
  rw [hdRestoresDefault_iff]
  decide

end Nivona
