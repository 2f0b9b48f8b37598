import NivonaEmulator.Lib.Publish
import NivonaEmulator.Device
import Mathlib.Data.Fintype.Basic

/-!
# Consumables changed by several tasks

Every setter of the consumables changes the memory under the module's mutex and
calls `persist` after it has given the mutex back.  The calls of all tasks are
interleaved here: `nvs_set_blob` reads the tanks byte by byte while it holds the
lock of the NVS library, whereas the parts are packed into a local array before
their `nvs_set_blob` asks for that lock.  So the tanks in flash always catch up
with the memory, and the parts do unless a packed array that is out of date is
written last.
-/

namespace Nivona

/-! ## The setters in two parts -/

/-- A call of one of the setters. -/
inductive ConsumCall
  | set (c : Consumable) (pct : UInt8)
  | adjust (c : Consumable) (delta : ℤ)
  | partSet (p : Part) (present : Bool)
  | reset
  deriving DecidableEq, Repr

/-- The levels after the mutex section of a call. -/
def ConsumCall.onLevels : ConsumCall → (Consumable → UInt8) → Consumable → UInt8
  | .set c pct, levels => Function.update levels c (clamp8 pct.toNat)
  | .adjust c delta, levels =>
      Function.update levels c (clamp8 ((levels c).toNat + delta))
  | .partSet _ _, levels => levels
  | .reset, _ => fun
      | .water => 100
      | .beans => 100
      | .tray => 0
      | .filter => 100

/-- The parts after the mutex section of a call. -/
def ConsumCall.onParts : ConsumCall → (Part → Bool) → Part → Bool
  | .set _ _, parts => parts
  | .adjust _ _, parts => parts
  | .partSet p present, parts => Function.update parts p present
  | .reset, _ => fun _ => true

/-- The mutex section of a call. -/
def ConsumCall.lockedSection (call : ConsumCall) (d : Device) : Device :=
  { d with levels := call.onLevels d.levels, parts := call.onParts d.parts }

/-- The call as one step. -/
def ConsumCall.whole (call : ConsumCall) (d : Device) : Device :=
  match call with
  | .set c pct => nivonaConsumableSet d c pct
  | .adjust c delta => nivonaConsumableAdjust d c delta
  | .partSet p present => nivonaPartSet d p present
  | .reset => nivonaConsumablesReset d

theorem ConsumCall.whole_eq_persist (call : ConsumCall) (d : Device) :
    call.whole d = persist (call.lockedSection d) := by
  cases call <;> rfl

/-! ## Tasks -/

/-- Program points of a call. -/
inductive PersistPoint
  | idle
  /-- the mutex is given back, no blob written yet -/
  | changed
  /-- inside `nvs_set_blob` of the tanks, which has read some bytes -/
  | tanks (bytes : List UInt8)
  /-- packing `parts`, some entries done -/
  | packing (bytes : List UInt8)
  deriving DecidableEq, Repr

/-- The device, the holder of the NVS lock, and the tasks. -/
structure ConsumTasks (ι : Type*) where
  device : Device
  nvsLock : Option ι
  point : ι → PersistPoint

inductive ConsumStep (ι : Type*)
  | call (i : ι) (c : ConsumCall)
  | resume (i : ι)

section

variable {ι : Type*} [DecidableEq ι]

/-- The next step of a task inside `persist`; a task that has to wait for the NVS
lock stays where it is. -/
def persistResume (s : ConsumTasks ι) (i : ι) : ConsumTasks ι :=
  match s.point i with
  | .idle => s
  | .changed =>
      if s.nvsLock.isSome then s
      else { s with nvsLock := some i, point := Function.update s.point i (.tanks []) }
  | .tanks bytes =>
      if bytes.length < 4 then
        let next := ((tanksBlob s.device.levels).drop bytes.length).take 1
        { s with point := Function.update s.point i (.tanks (bytes ++ next)) }
      else
        { device :=
            { s.device with nvs := s.device.nvs.set .consum KEY_TANKS (.blob bytes) }
          nvsLock := none
          point := Function.update s.point i (.packing []) }
  | .packing bytes =>
      if bytes.length < 3 then
        let next := ((partsBlob s.device.parts).drop bytes.length).take 1
        { s with point := Function.update s.point i (.packing (bytes ++ next)) }
      else if s.nvsLock.isSome then s
      else
        { s with
          device :=
            { s.device with nvs := s.device.nvs.set .consum KEY_PARTS (.blob bytes) }
          point := Function.update s.point i .idle }

/-- A task makes its next call once the last one has returned. -/
def consumStep (s : ConsumTasks ι) : ConsumStep ι → ConsumTasks ι
  | .call i c =>
      match s.point i with
      | .idle =>
          { s with
            device := c.lockedSection s.device
            point := Function.update s.point i .changed }
      | _ => s
  | .resume i => persistResume s i

/-- No call is in progress. -/
def ConsumTasks.Quiet (s : ConsumTasks ι) : Prop :=
  ∀ i, s.point i = .idle

/-- Tasks that have not called anything yet. -/
def ConsumTasks.start (d : Device) : ConsumTasks ι :=
  { device := d, nvsLock := none, point := fun _ => .idle }

/-! ## A call that is not interrupted -/

/-- A call and the steps it takes. -/
def wholeCall (i : ι) (c : ConsumCall) : List (ConsumStep ι) :=
  .call i c :: List.replicate 10 (.resume i)

/-- Without other tasks the steps make up the call. -/
theorem run_wholeCall (d : Device) (i : ι) (c : ConsumCall) :
    Runs.run consumStep (.start d) (wholeCall i c) = .start (c.whole d) := by
  rw [ConsumCall.whole_eq_persist]
  simp [wholeCall, List.replicate, consumStep, persistResume, ConsumTasks.start,
    ConsumCall.lockedSection, tanksBlob, partsBlob, persist]
  rfl

end

/-! ## Flash and memory -/

/-- The parts a start finds in flash. -/
def Nvs.flashParts (nvs : Nvs) : Part → Bool :=
  ((nvs.getBlob .consum KEY_PARTS 3).bind partsOfBlob).getD fun _ => true

theorem Nvs.getBlob_set_self (nvs : Nvs) {ns : NvsNamespace} {key : NvsKey}
    {bytes : List UInt8} {size : ℕ} (hsize : bytes.length ≤ size) :
    (nvs.set ns key (.blob bytes)).getBlob ns key size = some bytes := by
  simp [Nvs.getBlob, hsize]

theorem Nvs.getBlob_set_of_key_ne (nvs : Nvs) {ns : NvsNamespace} {key key' : NvsKey}
    (h : key' ≠ key) (v : NvsValue) (size : ℕ) :
    (nvs.set ns key v).getBlob ns key' size = nvs.getBlob ns key' size := by
  simp only [Nvs.getBlob, nvs.get_set_of_key_ne h]

theorem tanksBlob_of_tanksOfBlob {bytes : List UInt8} {levels : Consumable → UInt8}
    (h : tanksOfBlob bytes = some levels) : bytes = tanksBlob levels := by
  match bytes with
  | [w, b, t, f] =>
      obtain rfl := Option.some.inj h
      rfl

/-- With tanks in flash, a start takes levels and parts from there. -/
theorem nivonaConsumablesInit_of_tanks {d : Device} {levels : Consumable → UInt8}
    (htanks : d.nvs.getBlob .consum KEY_TANKS 4 = some (tanksBlob levels)) :
    nivonaConsumablesInit d = { d with levels := levels, parts := d.nvs.flashParts } := by
  rw [nivonaConsumablesInit, restore, htanks, Nvs.flashParts]
  simp only [Option.bind_some, tanksOfBlob_tanksBlob]
  rcases (d.nvs.getBlob .consum KEY_PARTS 3).bind partsOfBlob with _ | parts
  · rfl
  · rfl

/-- After `nivona_consumables_init` the flash agrees with the memory. -/
theorem nivonaConsumablesInit_flash (d : Device) :
    (nivonaConsumablesInit d).nvs.getBlob .consum KEY_TANKS 4 =
        some (tanksBlob (nivonaConsumablesInit d).levels) ∧
      (nivonaConsumablesInit d).nvs.flashParts = (nivonaConsumablesInit d).parts := by
  rcases htanks : (d.nvs.getBlob .consum KEY_TANKS 4).bind tanksOfBlob with _ | levels
  · have hinit : nivonaConsumablesInit d = nivonaConsumablesReset d := by
      rw [nivonaConsumablesInit, restore, htanks]
    rw [hinit, nivonaConsumablesReset, persist]
    constructor
    · rw [Nvs.getBlob_set_of_key_ne _ (by decide)]
      exact Nvs.getBlob_set_self _ (Nat.le_refl 4)
    · rw [Nvs.flashParts, Nvs.getBlob_set_self _ (Nat.le_refl 3), Option.bind_some,
        partsOfBlob_partsBlob, Option.getD_some]
  · obtain ⟨bytes, hbytes, hlevels⟩ := Option.bind_eq_some_iff.mp htanks
    rw [tanksBlob_of_tanksOfBlob hlevels] at hbytes
    rw [nivonaConsumablesInit_of_tanks hbytes]
    exact ⟨hbytes, rfl⟩

/-! ## Locks and lengths -/

section

variable {ι : Type*}

/-- A task inside `nvs_set_blob` of the tanks holds the lock, no task has read
more bytes than there are, and packed bytes are 0 or 1. -/
structure ConsumTasks.WellFormed (s : ConsumTasks ι) : Prop where
  lock : ∀ i bytes, s.point i = .tanks bytes → s.nvsLock = some i
  tanks_length : ∀ i bytes, s.point i = .tanks bytes → bytes.length ≤ 4
  packing : ∀ i bytes, s.point i = .packing bytes →
    bytes.length ≤ 3 ∧ ∀ b ∈ bytes, b = 0 ∨ b = 1

theorem ConsumTasks.wellFormed_of_quiet {s : ConsumTasks ι} (h : s.Quiet) : s.WellFormed := by
  constructor
  · intro i bytes hi
    simp [h i] at hi
  · intro i bytes hi
    simp [h i] at hi
  · intro i bytes hi
    simp [h i] at hi

variable [DecidableEq ι] {s t : ConsumTasks ι} {i : ι}

/-- One task moves on; the others still hold what they hold. -/
theorem ConsumTasks.WellFormed.of_update (h : s.WellFormed) {p : PersistPoint}
    (hpoint : t.point = Function.update s.point i p)
    (hlock : ∀ j bytes, j ≠ i → s.point j = .tanks bytes → t.nvsLock = some j)
    (htanks : ∀ bytes, p = .tanks bytes → t.nvsLock = some i ∧ bytes.length ≤ 4)
    (hpacking : ∀ bytes, p = .packing bytes →
      bytes.length ≤ 3 ∧ ∀ b ∈ bytes, b = 0 ∨ b = 1) : t.WellFormed := by
  have hself : t.point i = p := by rw [hpoint, Function.update_self]
  have hother : ∀ j, j ≠ i → t.point j = s.point j := by
    intro j hj
    rw [hpoint, Function.update_of_ne hj]
  constructor
  · intro j bytes hj
    by_cases hji : j = i
    · subst hji
      exact (htanks bytes (hself.symm.trans hj)).1
    · exact hlock j bytes hji ((hother j hji).symm.trans hj)
  · intro j bytes hj
    by_cases hji : j = i
    · subst hji
      exact (htanks bytes (hself.symm.trans hj)).2
    · exact h.tanks_length j bytes ((hother j hji).symm.trans hj)
  · intro j bytes hj
    by_cases hji : j = i
    · subst hji
      exact hpacking bytes (hself.symm.trans hj)
    · exact h.packing j bytes ((hother j hji).symm.trans hj)

/-- Every byte of the parts is 0 or 1. -/
theorem partsBlob_bits (parts : Part → Bool) (b : UInt8) (hb : b ∈ partsBlob parts) :
    b = 0 ∨ b = 1 := by
  have hbit : ∀ present : Bool, (if present then 1 else 0 : UInt8) = 0 ∨
      (if present then 1 else 0 : UInt8) = 1 := by decide
  simp only [partsBlob, List.mem_cons, List.not_mem_nil, or_false] at hb
  rcases hb with rfl | rfl | rfl
  · exact hbit _
  · exact hbit _
  · exact hbit _

theorem length_next_le {α : Type*} (bytes view : List α) {n : ℕ} (h : bytes.length < n) :
    (bytes ++ (view.drop bytes.length).take 1).length ≤ n := by
  rw [List.length_append, List.length_take]
  omega

theorem ConsumTasks.WellFormed.resume (h : s.WellFormed) (i : ι) :
    (persistResume s i).WellFormed := by
  rcases hpoint : s.point i with _ | _ | bytes | bytes
  · simpa only [persistResume, hpoint] using h
  · by_cases hlock : s.nvsLock.isSome
    · simpa only [persistResume, hpoint, hlock, if_true] using h
    · have hfree : s.nvsLock = none := by simpa using hlock
      simp only [persistResume, hpoint, hlock, if_false, Bool.false_eq_true]
      refine h.of_update rfl ?_ ?_ (by simp)
      · intro j bytes _ hj
        have hheld := h.lock j bytes hj
        simp [hfree] at hheld
      · intro bytes hbytes
        obtain rfl := PersistPoint.tanks.inj hbytes
        exact ⟨rfl, by simp⟩
  · have hheld := h.lock i bytes hpoint
    by_cases hlength : bytes.length < 4
    · simp only [persistResume, hpoint, hlength, if_true]
      refine h.of_update rfl (fun j bytes _ hj => h.lock j bytes hj) ?_ (by simp)
      intro bytes' hbytes
      obtain rfl := PersistPoint.tanks.inj hbytes
      exact ⟨hheld, length_next_le _ _ hlength⟩
    · simp only [persistResume, hpoint, hlength, if_false]
      refine h.of_update rfl ?_ (by simp) (by simp)
      intro j bytes' hji hj
      have hj' := hheld.symm.trans (h.lock j bytes' hj)
      exact absurd (Option.some.inj hj').symm hji
  · by_cases hlength : bytes.length < 3
    · simp only [persistResume, hpoint, hlength, if_true]
      refine h.of_update rfl (fun j bytes _ hj => h.lock j bytes hj) (by simp) ?_
      intro bytes' hbytes
      obtain rfl := PersistPoint.packing.inj hbytes
      refine ⟨length_next_le _ _ hlength, fun b hb => ?_⟩
      rcases List.mem_append.mp hb with hold | hnew
      · exact (h.packing i bytes hpoint).2 b hold
      · exact partsBlob_bits s.device.parts b (List.mem_of_mem_drop (List.mem_of_mem_take hnew))
    · by_cases hlock : s.nvsLock.isSome
      · simpa only [persistResume, hpoint, hlength, hlock, if_false, if_true] using h
      · simp only [persistResume, hpoint, hlength, hlock, if_false, Bool.false_eq_true]
        exact h.of_update rfl (fun j bytes _ hj => h.lock j bytes hj) (by simp) (by simp)

theorem ConsumTasks.WellFormed.step (h : s.WellFormed) (a : ConsumStep ι) :
    (consumStep s a).WellFormed := by
  cases a with
  | call i c =>
      rcases hpoint : s.point i with _ | _ | bytes | bytes
      · simp only [consumStep, hpoint]
        exact h.of_update rfl (fun j bytes _ hj => h.lock j bytes hj) (by simp) (by simp)
      all_goals simpa only [consumStep, hpoint] using h
  | resume i => exact h.resume i

/-! ## The tanks -/

/-- `nvs_set_blob` of the tanks reads them byte by byte. -/
def tanksReader : Publish.Reader (Consumable → UInt8) (List UInt8) (List UInt8) :=
  .copy 4 tanksBlob fun _ => rfl

/-- What a task still has to do about the tanks. -/
def PersistPoint.tanksStage : PersistPoint → Publish.Stage (List UInt8)
  | .changed => .due
  | .tanks bytes => .reading bytes
  | _ => .idle

/-- The tanks in memory, the tanks in flash, and the tasks. -/
def ConsumTasks.tanksView (s : ConsumTasks ι) :
    Publish.State ι (Consumable → UInt8) (List UInt8) (List UInt8) :=
  { memory := s.device.levels
    shown := (s.device.nvs.getBlob .consum KEY_TANKS 4).getD []
    stage := fun i => (s.point i).tanksStage }

/-- What a step does to the tanks. -/
def tanksSteps (s : ConsumTasks ι) :
    ConsumStep ι → List (Publish.Step ι (Consumable → UInt8) (List UInt8))
  | .call i c =>
      match s.point i with
      | .idle => [.change i c.onLevels]
      | _ => []
  | .resume i =>
      match s.point i with
      | .changed => if s.nvsLock.isSome then [] else [.start i]
      | .tanks bytes => if bytes.length < 4 then [.look i] else [.publish i]
      | _ => []

/-- The tanks after one task has moved on. -/
theorem tanksView_update (s : ConsumTasks ι) (d : Device) (lock : Option ι) (i : ι)
    (p : PersistPoint) :
    ({ device := d, nvsLock := lock, point := Function.update s.point i p } :
      ConsumTasks ι).tanksView =
      { memory := d.levels
        shown := (d.nvs.getBlob .consum KEY_TANKS 4).getD []
        stage := Function.update s.tanksView.stage i p.tanksStage } := by
  have hstage : (fun j => (Function.update s.point i p j).tanksStage) =
      Function.update s.tanksView.stage i p.tanksStage := by
    funext j
    exact Function.apply_update (fun _ => PersistPoint.tanksStage) s.point i p j
  rw [← hstage]
  rfl

/-- On the tanks every step of the tasks is at most one step of a publication. -/
theorem tanksView_step (h : s.WellFormed) (a : ConsumStep ι) :
    (consumStep s a).tanksView =
      Runs.run (Publish.step tanksReader) s.tanksView (tanksSteps s a) := by
  cases a with
  | call i c =>
      rcases hpoint : s.point i with _ | _ | bytes | bytes
      · have hstage : s.tanksView.stage i = .idle := by simp [ConsumTasks.tanksView, hpoint,
          PersistPoint.tanksStage]
        simp only [consumStep, hpoint, tanksView_update, tanksSteps, Runs.run_cons,
          Runs.run_nil, Publish.step, hstage]
        rfl
      all_goals simp [consumStep, tanksSteps, hpoint]
  | resume i =>
      rcases hpoint : s.point i with _ | _ | bytes | bytes
      · simp [consumStep, persistResume, tanksSteps, hpoint]
      · have hstage : s.tanksView.stage i = .due := by simp [ConsumTasks.tanksView, hpoint,
          PersistPoint.tanksStage]
        by_cases hlock : s.nvsLock.isSome
        · simp [consumStep, persistResume, tanksSteps, hpoint, hlock]
        · simp only [consumStep, persistResume, hpoint, hlock, Bool.false_eq_true, if_false,
            tanksView_update, tanksSteps, Runs.run_cons, Runs.run_nil, Publish.step, hstage]
          rfl
      · have hstage : s.tanksView.stage i = .reading bytes := by
          simp [ConsumTasks.tanksView, hpoint, PersistPoint.tanksStage]
        by_cases hlength : bytes.length < 4
        · simp only [consumStep, persistResume, hpoint, hlength, if_true,
            tanksView_update, tanksSteps, Runs.run_cons, Runs.run_nil, Publish.step, hstage]
          rfl
        · have hfull : bytes.length = 4 :=
            Nat.le_antisymm (h.tanks_length i bytes hpoint) (Nat.not_lt.mp hlength)
          have hresult : tanksReader.result bytes = some bytes := if_pos hfull
          simp only [consumStep, persistResume, hpoint, hlength, if_false, tanksView_update,
            tanksSteps, Runs.run_cons, Runs.run_nil, Publish.step, hstage, hresult,
            Nvs.getBlob_set_self _ (Nat.le_of_eq hfull)]
          rfl
      · have hstage : s.tanksView.stage i = .idle := by simp [ConsumTasks.tanksView, hpoint,
          PersistPoint.tanksStage]
        have hsame : Function.update s.tanksView.stage i .idle = s.tanksView.stage := by
          rw [← hstage, Function.update_eq_self]
        by_cases hlength : bytes.length < 3
        · simp only [consumStep, persistResume, hpoint, hlength, if_true, tanksView_update,
            tanksSteps, Runs.run_nil, PersistPoint.tanksStage, hsame]
          rfl
        · by_cases hlock : s.nvsLock.isSome
          · simp [consumStep, persistResume, tanksSteps, hpoint, hlength, hlock]
          · simp only [consumStep, persistResume, hpoint, hlength, hlock, Bool.false_eq_true,
              if_false, tanksView_update, tanksSteps, Runs.run_nil, PersistPoint.tanksStage,
              hsame, Nvs.getBlob_set_of_key_ne _ (show KEY_TANKS ≠ KEY_PARTS by decide)]
            rfl

/-- A task begins to read the tanks only with the NVS lock. -/
theorem tanksSteps_oneAtATime (h : s.WellFormed) (a : ConsumStep ι) :
    Runs.Guarded (Publish.step tanksReader) Publish.OneAtATime s.tanksView
      (tanksSteps s a) := by
  cases a with
  | call i c =>
      rcases hpoint : s.point i with _ | _ | bytes | bytes
      all_goals simp [tanksSteps, hpoint, Publish.OneAtATime]
  | resume i =>
      rcases hpoint : s.point i with _ | _ | bytes | bytes
      · simp [tanksSteps, hpoint]
      · by_cases hlock : s.nvsLock.isSome
        · simp [tanksSteps, hpoint, hlock]
        · have hnone : ∀ j bytes, s.point j ≠ .tanks bytes := by
            intro j bytes hj
            rw [h.lock j bytes hj] at hlock
            exact hlock rfl
          have hreading : ∀ j bytes, s.tanksView.stage j ≠ .reading bytes := by
            intro j bytes hj
            rcases hj' : s.point j with _ | _ | bytes' | bytes'
            · simp [ConsumTasks.tanksView, hj', PersistPoint.tanksStage] at hj
            · simp [ConsumTasks.tanksView, hj', PersistPoint.tanksStage] at hj
            · exact hnone j bytes' hj'
            · simp [ConsumTasks.tanksView, hj', PersistPoint.tanksStage] at hj
          simp only [tanksSteps, hpoint, hlock, Bool.false_eq_true, if_false,
            Runs.guarded_cons, Runs.guarded_nil, and_true, Publish.OneAtATime]
          split
          · trivial
          · exact hreading
      · by_cases hlength : bytes.length < 4
        · simp [tanksSteps, hpoint, hlength, Publish.OneAtATime]
        · simp [tanksSteps, hpoint, hlength, Publish.OneAtATime]
      · simp [tanksSteps, hpoint]

/-- Through every run of calls the tanks in flash are right or on their way. -/
theorem tanks_settled (d : Device) (actions : List (ConsumStep ι)) :
    (Runs.run consumStep (.start (nivonaConsumablesInit d)) actions).WellFormed ∧
      Publish.Settled tanksReader
        (Runs.run consumStep (.start (nivonaConsumablesInit d)) actions).tanksView := by
  have hrun : ∀ s : ConsumTasks ι,
      s.WellFormed ∧ Publish.Settled tanksReader s.tanksView ∧
        Publish.Exclusive tanksReader s.tanksView →
      (Runs.run consumStep s actions).WellFormed ∧
        Publish.Settled tanksReader (Runs.run consumStep s actions).tanksView ∧
        Publish.Exclusive tanksReader (Runs.run consumStep s actions).tanksView := by
    intro s hs
    refine Runs.invariant (P := fun s : ConsumTasks ι => s.WellFormed ∧
      Publish.Settled tanksReader s.tanksView ∧ Publish.Exclusive tanksReader s.tanksView)
      ?_ hs actions
    rintro s a ⟨hwf, hsettled, hexcl⟩
    refine ⟨hwf.step a, ?_⟩
    rw [tanksView_step hwf]
    exact Publish.settled_of_oneAtATime hsettled hexcl (tanksSteps_oneAtATime hwf a)
  have hquiet : (ConsumTasks.start (nivonaConsumablesInit d) : ConsumTasks ι).Quiet :=
    fun _ => rfl
  have hshown : (ConsumTasks.start (nivonaConsumablesInit d) :
      ConsumTasks ι).tanksView.shown = tanksBlob (nivonaConsumablesInit d).levels := by
    simp [ConsumTasks.tanksView, ConsumTasks.start, (nivonaConsumablesInit_flash d).1]
  obtain ⟨hwf, hsettled, -⟩ := hrun _ ⟨ConsumTasks.wellFormed_of_quiet hquiet,
    .inl hshown, .of_quiet fun _ => rfl⟩
  exact ⟨hwf, hsettled⟩

/-- Once all calls have returned, the flash holds the levels of the memory. -/
theorem tanks_flash_of_quiet (d : Device) (actions : List (ConsumStep ι))
    (hquiet : (Runs.run consumStep (.start (nivonaConsumablesInit d)) actions).Quiet) :
    (Runs.run consumStep (.start (nivonaConsumablesInit d)) actions).device.nvs.getBlob
        .consum KEY_TANKS 4 =
      some (tanksBlob
        (Runs.run consumStep (.start (nivonaConsumablesInit d)) actions).device.levels) := by
  obtain ⟨-, hsettled⟩ := tanks_settled d actions
  have hshown := hsettled.shown_of_quiet fun i => by
    simp [ConsumTasks.tanksView, hquiet i, PersistPoint.tanksStage]
  generalize Runs.run consumStep (.start (nivonaConsumablesInit d)) actions = s at hshown ⊢
  have hview : (s.device.nvs.getBlob .consum KEY_TANKS 4).getD [] =
      tanksBlob s.device.levels := hshown
  rcases hblob : s.device.nvs.getBlob .consum KEY_TANKS 4 with _ | bytes
  · rw [hblob] at hview
    exact absurd hview (by simp [tanksBlob])
  · rw [hblob] at hview
    exact congrArg some hview

/-- The calls of any number of tasks, interleaved in any way, leave the levels in
flash that a reboot then finds: those of the memory. -/
theorem levels_survive_reboot (d : Device) (actions : List (ConsumStep ι))
    (hquiet : (Runs.run consumStep (.start (nivonaConsumablesInit d)) actions).Quiet) :
    (nivonaConsumablesInit (Device.powerOn
        (Runs.run consumStep (.start (nivonaConsumablesInit d)) actions).device.nvs)).levels =
      (Runs.run consumStep (.start (nivonaConsumablesInit d)) actions).device.levels := by
  have hflash := tanks_flash_of_quiet d actions hquiet
  rw [nivonaConsumablesInit_of_tanks (d := Device.powerOn _) hflash]

/-! ## The parts -/

/-- The parts are packed one by one, outside every lock. -/
def partsReader : Publish.Reader (Part → Bool) (List UInt8) (List UInt8) :=
  .copy 3 partsBlob fun _ => rfl

/-- What a task still has to do about the parts. -/
def PersistPoint.partsStage : PersistPoint → Publish.Stage (List UInt8)
  | .idle => .idle
  | .packing bytes => .reading bytes
  | _ => .due

/-- The parts in memory, the parts in flash as a start reads them, and the tasks. -/
def ConsumTasks.partsView (s : ConsumTasks ι) :
    Publish.State ι (Part → Bool) (List UInt8) (List UInt8) :=
  { memory := s.device.parts
    shown := partsBlob s.device.nvs.flashParts
    stage := fun i => (s.point i).partsStage }

/-- What a step does to the parts. -/
def partsSteps (s : ConsumTasks ι) :
    ConsumStep ι → List (Publish.Step ι (Part → Bool) (List UInt8))
  | .call i c =>
      match s.point i with
      | .idle => [.change i c.onParts]
      | _ => []
  | .resume i =>
      match s.point i with
      | .tanks bytes => if bytes.length < 4 then [] else [.start i]
      | .packing bytes =>
          if bytes.length < 3 then [.look i]
          else if s.nvsLock.isSome then [] else [.publish i]
      | _ => []

/-- The task has an array of the present parts still to write. -/
def ConsumTasks.PartsPending (s : ConsumTasks ι) (i : ι) : Prop :=
  match s.point i with
  | .idle => False
  | .packing bytes => bytes <+: partsBlob s.device.parts
  | _ => True

/-- An array of parts that is out of date is written only while another task has
one of the present parts still to write. -/
def PartsInTime (s : ConsumTasks ι) : ConsumStep ι → Prop
  | .call _ _ => True
  | .resume i =>
      match s.point i with
      | .packing bytes =>
          bytes.length = 3 → s.nvsLock = none →
            bytes = partsBlob s.device.parts ∨ ∃ j, j ≠ i ∧ s.PartsPending j
      | _ => True

instance decidablePartsPending (s : ConsumTasks ι) (i : ι) : Decidable (s.PartsPending i) :=
  match h : s.point i with
  | .idle => isFalse (by simp [ConsumTasks.PartsPending, h])
  | .changed => isTrue (by simp [ConsumTasks.PartsPending, h])
  | .tanks _ => isTrue (by simp [ConsumTasks.PartsPending, h])
  | .packing bytes =>
      decidable_of_iff (bytes <+: partsBlob s.device.parts)
        (by simp [ConsumTasks.PartsPending, h])

instance decidablePartsInTime [Fintype ι] (s : ConsumTasks ι) :
    ∀ a, Decidable (PartsInTime s a)
  | .call _ _ => isTrue trivial
  | .resume i =>
      match h : s.point i with
      | .idle => isTrue (by simp [PartsInTime, h])
      | .changed => isTrue (by simp [PartsInTime, h])
      | .tanks _ => isTrue (by simp [PartsInTime, h])
      | .packing bytes =>
          decidable_of_iff
            (bytes.length = 3 → s.nvsLock = none →
              bytes = partsBlob s.device.parts ∨ ∃ j, j ≠ i ∧ s.PartsPending j)
            (by simp [PartsInTime, h])

/-- The parts after one task has moved on. -/
theorem partsView_update (s : ConsumTasks ι) (d : Device) (lock : Option ι) (i : ι)
    (p : PersistPoint) :
    ({ device := d, nvsLock := lock, point := Function.update s.point i p } :
      ConsumTasks ι).partsView =
      { memory := d.parts
        shown := partsBlob d.nvs.flashParts
        stage := Function.update s.partsView.stage i p.partsStage } := by
  have hstage : (fun j => (Function.update s.point i p j).partsStage) =
      Function.update s.partsView.stage i p.partsStage := by
    funext j
    exact Function.apply_update (fun _ => PersistPoint.partsStage) s.point i p j
  rw [← hstage]
  rfl

theorem flashParts_set_tanks (nvs : Nvs) (bytes : List UInt8) :
    (nvs.set .consum KEY_TANKS (.blob bytes)).flashParts = nvs.flashParts := by
  rw [Nvs.flashParts, Nvs.getBlob_set_of_key_ne _ (by decide), Nvs.flashParts]

/-- Three bytes 0 or 1 are the blob of some parts. -/
theorem exists_partsBlob {bytes : List UInt8} (hlength : bytes.length = 3)
    (hbits : ∀ b ∈ bytes, b = 0 ∨ b = 1) : ∃ parts, bytes = partsBlob parts := by
  match bytes with
  | [u, t, l] =>
      refine ⟨(partsOfBlob [u, t, l]).getD fun _ => true, ?_⟩
      have hback : ∀ b : UInt8, b = 0 ∨ b = 1 → b = if b != 0 then 1 else 0 := by
        rintro b (rfl | rfl)
        · rfl
        · rfl
      change [u, t, l] =
        [if u != 0 then 1 else 0, if t != 0 then 1 else 0, if l != 0 then 1 else 0]
      rw [← hback u (hbits u (by simp)), ← hback t (hbits t (by simp)),
        ← hback l (hbits l (by simp))]

/-- Packed bytes are read back as they were written. -/
theorem partsBlob_flashParts_set (nvs : Nvs) {bytes : List UInt8}
    (hlength : bytes.length = 3) (hbits : ∀ b ∈ bytes, b = 0 ∨ b = 1) :
    partsBlob (nvs.set .consum KEY_PARTS (.blob bytes)).flashParts = bytes := by
  obtain ⟨parts, rfl⟩ := exists_partsBlob hlength hbits
  rw [Nvs.flashParts, Nvs.getBlob_set_self _ (Nat.le_refl 3), Option.bind_some,
    partsOfBlob_partsBlob, Option.getD_some]

/-- On the parts every step of the tasks is at most one step of a publication. -/
theorem partsView_step (h : s.WellFormed) (a : ConsumStep ι) :
    (consumStep s a).partsView =
      Runs.run (Publish.step partsReader) s.partsView (partsSteps s a) := by
  cases a with
  | call i c =>
      rcases hpoint : s.point i with _ | _ | bytes | bytes
      · have hstage : s.partsView.stage i = .idle := by
          simp [ConsumTasks.partsView, hpoint, PersistPoint.partsStage]
        simp only [consumStep, hpoint, partsView_update, partsSteps, Runs.run_cons,
          Runs.run_nil, Publish.step, hstage]
        rfl
      all_goals simp [consumStep, partsSteps, hpoint]
  | resume i =>
      rcases hpoint : s.point i with _ | _ | bytes | bytes
      · simp [consumStep, persistResume, partsSteps, hpoint]
      · have hstage : s.partsView.stage i = .due := by
          simp [ConsumTasks.partsView, hpoint, PersistPoint.partsStage]
        have hsame : Function.update s.partsView.stage i .due = s.partsView.stage := by
          rw [← hstage, Function.update_eq_self]
        by_cases hlock : s.nvsLock.isSome
        · simp [consumStep, persistResume, partsSteps, hpoint, hlock]
        · simp only [consumStep, persistResume, hpoint, hlock, Bool.false_eq_true, if_false,
            partsView_update, partsSteps, Runs.run_nil, PersistPoint.partsStage, hsame]
          rfl
      · have hstage : s.partsView.stage i = .due := by
          simp [ConsumTasks.partsView, hpoint, PersistPoint.partsStage]
        have hsame : Function.update s.partsView.stage i .due = s.partsView.stage := by
          rw [← hstage, Function.update_eq_self]
        by_cases hlength : bytes.length < 4
        · simp only [consumStep, persistResume, hpoint, hlength, if_true, partsView_update,
            partsSteps, Runs.run_nil, PersistPoint.partsStage, hsame]
          rfl
        · simp only [consumStep, persistResume, hpoint, hlength, if_false, partsView_update,
            partsSteps, Runs.run_cons, Runs.run_nil, Publish.step, hstage, flashParts_set_tanks]
          rfl
      · have hstage : s.partsView.stage i = .reading bytes := by
          simp [ConsumTasks.partsView, hpoint, PersistPoint.partsStage]
        by_cases hlength : bytes.length < 3
        · simp only [consumStep, persistResume, hpoint, hlength, if_true, partsView_update,
            partsSteps, Runs.run_cons, Runs.run_nil, Publish.step, hstage]
          rfl
        · by_cases hlock : s.nvsLock.isSome
          · simp [consumStep, persistResume, partsSteps, hpoint, hlength, hlock]
          · obtain ⟨hle, hbits⟩ := h.packing i bytes hpoint
            have hfull : bytes.length = 3 := Nat.le_antisymm hle (Nat.not_lt.mp hlength)
            have hresult : partsReader.result bytes = some bytes := if_pos hfull
            simp only [consumStep, persistResume, hpoint, hlength, hlock, Bool.false_eq_true,
              if_false, partsView_update, partsSteps, Runs.run_cons, Runs.run_nil,
              Publish.step, hstage, hresult, partsBlob_flashParts_set _ hfull hbits]
            rfl

omit [DecidableEq ι] in
theorem partsPending_iff : Publish.Pending partsReader s.partsView i ↔ s.PartsPending i := by
  rcases hpoint : s.point i with _ | _ | bytes | bytes
  · simp [Publish.Pending, ConsumTasks.partsView, PersistPoint.partsStage, hpoint,
      ConsumTasks.PartsPending]
  · simp [Publish.Pending, ConsumTasks.partsView, PersistPoint.partsStage, hpoint,
      ConsumTasks.PartsPending]
  · simp [Publish.Pending, ConsumTasks.partsView, PersistPoint.partsStage, hpoint,
      ConsumTasks.PartsPending]
  · simp only [Publish.Pending, ConsumTasks.partsView, PersistPoint.partsStage, hpoint,
      ConsumTasks.PartsPending]
    exact Publish.fresh_copy_iff

/-- Writing the parts in time is publishing them in time. -/
theorem partsSteps_inTime_iff (h : s.WellFormed) (a : ConsumStep ι) :
    Runs.Guarded (Publish.step partsReader) (Publish.InTime partsReader) s.partsView
      (partsSteps s a) ↔ PartsInTime s a := by
  cases a with
  | call i c =>
      rcases hpoint : s.point i with _ | _ | bytes | bytes
      all_goals simp [partsSteps, hpoint, Publish.InTime, PartsInTime]
  | resume i =>
      rcases hpoint : s.point i with _ | _ | bytes | bytes
      · simp [partsSteps, hpoint, PartsInTime]
      · simp [partsSteps, hpoint, PartsInTime]
      · by_cases hlength : bytes.length < 4
        · simp [partsSteps, hpoint, PartsInTime, hlength]
        · simp [partsSteps, hpoint, PartsInTime, hlength, Publish.InTime]
      · by_cases hlength : bytes.length < 3
        · have hne : bytes.length ≠ 3 := Nat.ne_of_lt hlength
          simp [partsSteps, hpoint, PartsInTime, hlength, hne, Publish.InTime]
        · have hfull : bytes.length = 3 :=
            Nat.le_antisymm (h.packing i bytes hpoint).1 (Nat.not_lt.mp hlength)
          rcases hlock : s.nvsLock with _ | holder
          · have hstage : s.partsView.stage i = .reading bytes := by
              simp [ConsumTasks.partsView, hpoint, PersistPoint.partsStage]
            have hresult : partsReader.result bytes = some bytes := if_pos hfull
            have hfresh : Publish.Fresh partsReader s.partsView bytes ↔
                bytes = partsBlob s.device.parts := by
              refine Publish.fresh_copy_iff.trans ⟨fun hprefix => ?_, ?_⟩
              · exact hprefix.eq_of_length hfull
              · intro heq
                exact ⟨[], by rw [List.append_nil]; exact heq⟩
            have hsteps : partsSteps s (.resume i) = [.publish i] := by
              simp [partsSteps, hpoint, hfull, hlock]
            have hguard : PartsInTime s (.resume i) ↔
                bytes = partsBlob s.device.parts ∨ ∃ j, j ≠ i ∧ s.PartsPending j := by
              simp [PartsInTime, hpoint, hfull, hlock]
            rw [hsteps, hguard, Runs.guarded_cons, and_iff_left (Runs.guarded_nil _)]
            simp only [Publish.InTime, hstage, hresult, Option.isSome_some, true_implies,
              hfresh, partsPending_iff]
          · simp [partsSteps, hpoint, PartsInTime, hlength, hlock]

/-- The parts in flash are right, or a task has the present ones still to write. -/
def ConsumTasks.PartsSettled (s : ConsumTasks ι) : Prop :=
  s.device.nvs.flashParts = s.device.parts ∨ ∃ i, s.PartsPending i

omit [DecidableEq ι] in
theorem partsBlob_injective {parts parts' : Part → Bool}
    (h : partsBlob parts = partsBlob parts') : parts = parts' := by
  have hback := congrArg partsOfBlob h
  simpa using hback

omit [DecidableEq ι] in
theorem partsSettled_iff :
    Publish.Settled partsReader s.partsView ↔ s.PartsSettled := by
  refine or_congr ?_ (exists_congr fun _ => partsPending_iff)
  exact ⟨fun h => partsBlob_injective h, fun h => congrArg partsBlob h⟩

omit [DecidableEq ι] in
theorem length_partsSteps_le (s : ConsumTasks ι) (a : ConsumStep ι) :
    (partsSteps s a).length ≤ 1 := by
  rcases a with ⟨i, c⟩ | i
  · simp only [partsSteps]
    split <;> simp
  · simp only [partsSteps]
    split
    · split <;> simp
    · split
      · simp
      · split <;> simp
    · simp

/-- What a step leaves of settled parts. -/
theorem partsSettled_step_iff (h : s.WellFormed) (hsettled : s.PartsSettled)
    (a : ConsumStep ι) : (consumStep s a).PartsSettled ↔ PartsInTime s a := by
  rw [← partsSettled_iff] at hsettled ⊢
  rw [partsView_step h, Publish.settled_run_iff hsettled (length_partsSteps_le s a)]
  exact partsSteps_inTime_iff h a

/-- From the start on, the parts in flash are right or on their way in exactly the
runs that write no outdated array last. -/
theorem partsSettled_iff_inTime (d : Device) (actions : List (ConsumStep ι)) :
    (∀ before, before <+: actions →
      (Runs.run consumStep (.start (nivonaConsumablesInit d)) before).PartsSettled) ↔
      Runs.Guarded consumStep PartsInTime (.start (nivonaConsumablesInit d)) actions := by
  have hstart : (ConsumTasks.start (nivonaConsumablesInit d) : ConsumTasks ι).WellFormed :=
    ConsumTasks.wellFormed_of_quiet fun _ => rfl
  have hsettled : (ConsumTasks.start (nivonaConsumablesInit d) : ConsumTasks ι).PartsSettled :=
    .inl (nivonaConsumablesInit_flash d).2
  have hwf (before : List (ConsumStep ι)) :
      (Runs.run consumStep (.start (nivonaConsumablesInit d)) before).WellFormed :=
    Runs.invariant (fun _ a h => h.step a) hstart before
  have hstep (s : ConsumTasks ι) (a : ConsumStep ι) (_ : True)
      (hs : s.WellFormed ∧ s.PartsSettled) :
      (consumStep s a).WellFormed ∧ (consumStep s a).PartsSettled ↔ PartsInTime s a :=
    (and_iff_right (hs.1.step a)).trans (partsSettled_step_iff hs.1 hs.2 a)
  rw [← Runs.forall_prefix_iff_guarded _ (fun _ => True) hstep ⟨hstart, hsettled⟩
    fun _ _ => trivial]
  exact forall₂_congr fun before _ => (and_iff_right (hwf before)).symm

/-- A run that writes no outdated array last leaves the parts in flash that a
reboot then finds: those of the memory. -/
theorem parts_survive_reboot (d : Device) {actions : List (ConsumStep ι)}
    (hrun : Runs.Guarded consumStep PartsInTime (.start (nivonaConsumablesInit d)) actions)
    (hquiet : (Runs.run consumStep (.start (nivonaConsumablesInit d)) actions).Quiet) :
    (nivonaConsumablesInit (Device.powerOn
        (Runs.run consumStep (.start (nivonaConsumablesInit d)) actions).device.nvs)).parts =
      (Runs.run consumStep (.start (nivonaConsumablesInit d)) actions).device.parts := by
  have htanks := tanks_flash_of_quiet d actions hquiet
  have hsettled := (partsSettled_iff_inTime d actions).mpr hrun actions List.prefix_rfl
  rw [nivonaConsumablesInit_of_tanks (d := Device.powerOn _) htanks]
  rcases hsettled with hright | ⟨i, hi⟩
  · exact hright
  · rw [ConsumTasks.PartsPending, hquiet i] at hi
    exact hi.elim

end

/-! ## Two tasks -/

/-- The second task changes a level while the first reads the tanks. -/
def tanksRace : List (ConsumStep Bool) :=
  [.call false (.adjust .water (-3)), .resume false, .resume false,
    .call true (.set .water 50)] ++
    List.replicate 9 (.resume false) ++ List.replicate 10 (.resume true)

theorem levels_survive_reboot_race :
    let s := Runs.run consumStep
      (.start (nivonaConsumablesInit (Device.powerOn Nvs.empty))) tanksRace
    (nivonaConsumablesInit (Device.powerOn s.device.nvs)).levels = s.device.levels :=
  levels_survive_reboot (Device.powerOn Nvs.empty) tanksRace
    (by unfold ConsumTasks.Quiet; decide +kernel)

/-- The first task has packed the parts when the second takes the trays out. -/
def partsRace : List (ConsumStep Bool) :=
  .call false (.adjust .water (-3)) :: List.replicate 9 (.resume false) ++
    [.call true (.partSet .trays false)]

/-- The first task writes its outdated array while the second still has to pack. -/
theorem parts_survive_reboot_race :
    let s := Runs.run consumStep
      (.start (nivonaConsumablesInit (Device.powerOn Nvs.empty)))
      (partsRace ++ .resume false :: List.replicate 10 (.resume true))
    (nivonaConsumablesInit (Device.powerOn s.device.nvs)).parts = s.device.parts :=
  parts_survive_reboot (Device.powerOn Nvs.empty) (by decide +kernel)
    (by unfold ConsumTasks.Quiet; decide +kernel)

/-- When the first task comes last instead, the memory has no trays and the flash
still has them. -/
example :
    let s := Runs.run consumStep
      (.start (nivonaConsumablesInit (Device.powerOn Nvs.empty)))
      (partsRace ++ List.replicate 10 (.resume true) ++ [.resume false])
    s.device.parts .trays = false ∧ s.device.nvs.flashParts .trays = true := by
  decide +kernel

end Nivona
