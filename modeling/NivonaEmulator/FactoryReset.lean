import NivonaEmulator.BootEntries
import NivonaEmulator.Exclusion
import NivonaEmulator.FlashWrites

/-!
# The factory reset

`cmd_factory_reset` wipes four namespaces one after another, waits for a second
and restarts.  The tasks go on meanwhile, and a task that writes to a namespace
after its wipe brings old state back.  Without such a write the next boot is a
first boot.
-/

namespace Nivona

/-! ## The command and the tasks -/

/-- `namespaces` of `cmd_factory_reset`, in the order of the wipes. -/
def resetNamespaces : List NvsNamespace := [.num, .alpha, .consum, .fam]

theorem mem_resetNamespaces (ns : NvsNamespace) : ns ∈ resetNamespaces := by
  cases ns <;> decide

/-- Open for writing, erase everything, commit. -/
def nvsEraseAll (nvs : Nvs) (ns : NvsNamespace) : Nvs :=
  Function.update nvs ns (some ∅)

/-- The tasks that write to flash. -/
inductive TaskKind
  | brew | cycle
  deriving DecidableEq, Repr

/-- A step of the `i`-th task of a kind. -/
def taskStep (c : Core) : TaskKind → ℕ → Core
  | .brew, i => (brewTask c i).1
  | .cycle, i => (cycleTask c i).1

/-- The flash writes of that step. -/
def taskWrites (c : Core) : TaskKind → ℕ → List NvsWrite
  | .brew, i => (c.brew.tasks[i]?.map (brewStepWrites c)).getD []
  | .cycle, i => (c.cycle.tasks[i]?.map (cycleStepWrites c)).getD []

def Core.withFlash (c : Core) (nvs : Nvs) : Core :=
  { c with device := { c.device with nvs := nvs } }

/-- `cmd_factory_reset` in progress: the wipes to come, and the writes a task
still has to make before its next program point.  With no wipe left the command
waits for its second, and restarts at some point. -/
structure Resetting where
  core : Core
  left : List NvsNamespace
  pending : TaskKind → List NvsWrite

inductive ResetAction
  | wipe
  | task (kind : TaskKind) (i : ℕ)
  deriving DecidableEq, Repr

/-- The command wipes its next namespace; a task makes its next write, or goes
on to its next program point. -/
def resetStep (s : Resetting) : ResetAction → Resetting
  | .wipe =>
      match s.left with
      | [] => s
      | ns :: rest =>
          { s with core := s.core.withFlash (nvsEraseAll s.core.device.nvs ns), left := rest }
  | .task kind i =>
      match s.pending kind with
      | w :: rest =>
          { s with
            core := s.core.withFlash (w.apply s.core.device.nvs)
            pending := Function.update s.pending kind rest }
      | [] =>
          { s with
            core := (taskStep s.core kind i).withFlash s.core.device.nvs
            pending := Function.update s.pending kind (taskWrites s.core kind i) }

/-- The command before its first wipe, with no task in the middle of its writes. -/
def Resetting.start (c : Core) : Resetting :=
  { core := c, left := resetNamespaces, pending := fun _ => [] }

/-! ## Tasks that are not interrupted -/

/-- The writes of a task step make up its effect on flash. -/
theorem nvs_taskStep (c : Core) (kind : TaskKind) (i : ℕ) :
    (taskStep c kind i).device.nvs =
      Runs.run NvsWrite.apply c.device.nvs (taskWrites c kind i) := by
  cases kind with
  | brew =>
      rcases hpc : c.brew.tasks[i]? with _ | pc
      · simp [taskStep, taskWrites, brewTask, hpc]
      · obtain ⟨tasks, hcore⟩ := brewTask_core hpc
        rw [taskStep, hcore, taskWrites, hpc]
        exact nvs_brewTaskStep c pc
  | cycle =>
      rcases hpc : c.cycle.tasks[i]? with _ | pc
      · simp [taskStep, taskWrites, cycleTask, hpc]
      · obtain ⟨tasks, hcore⟩ := cycleTask_core hpc
        rw [taskStep, hcore, taskWrites, hpc]
        exact nvs_cycleTaskStep c pc

/-- A task makes its pending writes one by one. -/
theorem run_pending (kind : TaskKind) (i : ℕ) (writes : List NvsWrite) {s : Resetting}
    (hpending : s.pending kind = writes) :
    Runs.run resetStep s (List.replicate writes.length (.task kind i)) =
      { s with
        core := s.core.withFlash (Runs.run NvsWrite.apply s.core.device.nvs writes)
        pending := Function.update s.pending kind [] } := by
  induction writes generalizing s with
  | nil =>
      have hkeep := Function.update_eq_self kind s.pending
      rw [hpending] at hkeep
      rw [hkeep]
      rfl
  | cons w rest ih =>
      have hstep : resetStep s (.task kind i) =
          { s with
            core := s.core.withFlash (w.apply s.core.device.nvs)
            pending := Function.update s.pending kind rest } := by
        simp only [resetStep, hpending]
      rw [List.length_cons, List.replicate_succ, Runs.run_cons, hstep,
        ih (Function.update_self kind rest s.pending), Function.update_idem]
      rfl

/-- Between two wipes a task step with its writes is the step of the core. -/
theorem run_task {s : Resetting} {kind : TaskKind} (hpending : s.pending kind = []) (i : ℕ) :
    Runs.run resetStep s
        (List.replicate (1 + (taskWrites s.core kind i).length) (.task kind i)) =
      { s with core := taskStep s.core kind i } := by
  have hstep : resetStep s (.task kind i) =
      { s with
        core := (taskStep s.core kind i).withFlash s.core.device.nvs
        pending := Function.update s.pending kind (taskWrites s.core kind i) } := by
    simp only [resetStep, hpending]
  rw [Nat.add_comm, List.replicate_succ, Runs.run_cons, hstep,
    run_pending kind i _ (Function.update_self kind _ s.pending), Function.update_idem,
    ← hpending, Function.update_eq_self]
  dsimp only [Core.withFlash]
  rw [← nvs_taskStep]

/-! ## Late writes -/

/-- Stores an entry; opening a namespace stores none. -/
def NvsWrite.stores : NvsWrite → Bool
  | .create _ => false
  | .set .. => true

/-- Wiped namespaces are empty. -/
def Resetting.WipedEmpty (s : Resetting) : Prop :=
  ∀ ns, ns ∉ s.left → s.core.device.nvs ns = some ∅

/-- No task stores an entry in a namespace that the command has already wiped. -/
def NoLateWrite (s : Resetting) : ResetAction → Prop
  | .wipe => True
  | .task kind _ => ∀ w ∈ (s.pending kind).head?, w.stores = true → w.ns ∈ s.left

instance (s : Resetting) : (a : ResetAction) → Decidable (NoLateWrite s a)
  | .wipe => inferInstanceAs (Decidable True)
  | .task kind _ => inferInstanceAs
      (Decidable (∀ w ∈ (s.pending kind).head?, w.stores = true → w.ns ∈ s.left))

theorem NvsEntries.insert_ne_empty (entries : NvsEntries) (key : NvsKey) (v : NvsValue) :
    entries.insert key v ≠ ∅ := by
  intro h
  have hlookup := AList.lookup_insert (s := entries) (a := key) (b := v)
  rw [h] at hlookup
  simp at hlookup

/-- A write leaves the wiped namespaces empty unless it stores in one of them. -/
theorem wipedEmpty_apply {nvs : Nvs} {left : List NvsNamespace}
    (h : ∀ ns, ns ∉ left → nvs ns = some ∅) (w : NvsWrite) :
    (∀ ns, ns ∉ left → w.apply nvs ns = some ∅) ↔ (w.stores = true → w.ns ∈ left) := by
  cases w with
  | create ns =>
      have hcreate : ∀ ns', ns' ∉ left → NvsWrite.apply nvs (.create ns) ns' = some ∅ := by
        intro ns' hleft
        by_cases hns : ns' = ns
        · subst hns
          rw [NvsWrite.apply, Function.update_self, Nvs.openReadwrite, h ns' hleft,
            Option.getD_some]
        · rw [NvsWrite.apply, Function.update_of_ne hns, h ns' hleft]
      exact iff_of_true hcreate fun hstores => absurd hstores Bool.false_ne_true
  | set ns key v =>
      simp only [NvsWrite.stores, NvsWrite.ns, NvsWrite.apply, Nvs.set, forall_const]
      constructor
      · intro hempty
        by_contra hleft
        have hns := hempty ns hleft
        rw [Function.update_self, Option.some.injEq] at hns
        exact NvsEntries.insert_ne_empty _ key v hns
      · intro hleft ns' hns'
        have hne : ns' ≠ ns := by
          rintro rfl
          exact hns' hleft
        rw [Function.update_of_ne hne, h ns' hns']

/-- A wipe empties its namespace and leaves the others alone. -/
theorem empty_of_wipe {s : Resetting} {ns : NvsNamespace}
    (h : ns ∉ s.left → s.core.device.nvs ns = some ∅) (hns : ns ∉ (resetStep s .wipe).left) :
    (resetStep s .wipe).core.device.nvs ns = some ∅ := by
  rcases hleft : s.left with _ | ⟨ns', rest⟩
  · simp only [resetStep, hleft] at hns ⊢
    exact h (by rwa [hleft])
  · simp only [resetStep, hleft] at hns ⊢
    by_cases heq : ns = ns'
    · subst heq
      exact Function.update_self ns (some ∅) s.core.device.nvs
    · have hold : s.core.device.nvs ns = some ∅ := by
        apply h
        rw [hleft, List.mem_cons, not_or]
        exact ⟨heq, hns⟩
      exact (Function.update_of_ne heq _ _).trans hold

/-- A step leaves the wiped namespaces empty exactly when it is no late write. -/
theorem wipedEmpty_step (s : Resetting) (a : ResetAction) (h : s.WipedEmpty) :
    (resetStep s a).WipedEmpty ↔ NoLateWrite s a := by
  cases a with
  | wipe =>
      have hwipe : (resetStep s .wipe).WipedEmpty := fun ns => empty_of_wipe (h ns)
      exact iff_of_true hwipe trivial
  | task kind i =>
      rcases hpending : s.pending kind with _ | ⟨w, rest⟩
      · have hsame : (resetStep s (.task kind i)).WipedEmpty := by
          simp only [resetStep, hpending]
          exact h
        exact iff_of_true hsame (by simp [NoLateWrite, hpending])
      · have happly := wipedEmpty_apply h w
        simpa [NoLateWrite, Resetting.WipedEmpty, resetStep, hpending, Core.withFlash] using happly

/-- In a run the wiped namespaces are empty throughout exactly when no write of
a task comes late. -/
theorem wipedEmpty_throughout_iff {s : Resetting} (hstart : s.left = resetNamespaces)
    (actions : List ResetAction) :
    (∀ before, before <+: actions → (Runs.run resetStep s before).WipedEmpty) ↔
      Runs.Guarded resetStep NoLateWrite s actions := by
  have hinit : s.WipedEmpty := by
    intro ns hns
    rw [hstart] at hns
    exact absurd (mem_resetNamespaces ns) hns
  exact Runs.forall_prefix_iff_guarded Resetting.WipedEmpty (fun _ => True)
    (fun s a _ h => wipedEmpty_step s a h) hinit fun _ _ => trivial

/-! ## The result -/

/-- Whatever state the command starts in, when no task stores an entry in a
namespace after its wipe the boot after the restart is a first boot. -/
theorem factoryReset_fresh (s : Resetting) (hstart : s.left = resetNamespaces)
    (it : NvsIterator) (actions : List ResetAction)
    (hrun : Runs.Guarded resetStep NoLateWrite s actions)
    (hdone : (Runs.run resetStep s actions).left = []) :
    let c := (Runs.run resetStep s actions).core
    (reboot it c).SameState (appMain it Nvs.empty c.taskResults) := by
  intro c
  have hwiped := (wipedEmpty_throughout_iff hstart actions).mpr hrun actions List.prefix_rfl
  apply sameState_appMain
  intro ns
  have hns : c.device.nvs ns = some ∅ := by
    apply hwiped
    rw [hdone]
    exact List.not_mem_nil
  rw [Nvs.openReadwrite, hns]
  rfl

/-- An espresso half a second before its second stage. -/
def espressoInProgress : Core :=
  (Runs.run concurrentStep
    (Concurrent.boot NvsIterator.storageOrder Nvs.empty fun _ => true)
    (.op (.brewStart 0 false) :: List.replicate 5 (.resume 0) ++
      List.replicate 13 (.op (.brewTask 0)))).core

/-- The stage begins between the first wipe and that of the tanks. -/
def stageBeforeWipe : List ResetAction :=
  .wipe :: List.replicate 5 (.task .brew 0) ++ [.wipe, .wipe, .wipe, .task .brew 0]

/-- The stage begins while the command waits. -/
def stageAfterWipe : List ResetAction :=
  List.replicate 4 .wipe ++ List.replicate 5 (.task .brew 0)

theorem factoryReset_fresh_stageBeforeWipe :
    let c := (Runs.run resetStep (Resetting.start espressoInProgress) stageBeforeWipe).core
    c.device.levels .water = 97 ∧
      (reboot NvsIterator.storageOrder c).SameState
        (appMain NvsIterator.storageOrder Nvs.empty c.taskResults) :=
  ⟨by decide +kernel, factoryReset_fresh (Resetting.start espressoInProgress) rfl
    NvsIterator.storageOrder stageBeforeWipe (by decide +kernel) (by decide +kernel)⟩

/-- Then the tanks come back with what the stage has left. -/
theorem factoryReset_stageAfterWipe :
    let s := Runs.run resetStep (Resetting.start espressoInProgress) stageAfterWipe
    let c := reboot NvsIterator.storageOrder s.core
    CoreReachable espressoInProgress ∧ s.left = [] ∧
      c.device.levels .water = 97 ∧ c.device.levels .beans = 97 ∧ c.device.levels .tray = 2 ∧
      ¬c.SameState (appMain NvsIterator.storageOrder Nvs.empty s.core.taskResults) := by
  intro s c
  have hwater : c.device.levels .water = 97 := by decide +kernel
  have hfresh : (appMain NvsIterator.storageOrder Nvs.empty s.core.taskResults).device.levels
      .water = 100 := by decide +kernel
  refine ⟨⟨_, _, _, _, rfl⟩, by decide +kernel, hwater, by decide +kernel, by decide +kernel, ?_⟩
  intro hsame
  rw [hsame.levels, hfresh] at hwater
  exact absurd hwater (by decide)

/-! ## What no task brings back -/

/-- The alphanumeric registers and the family, once wiped, and the writes that
tasks have pending. -/
structure Resetting.OthersEmpty (s : Resetting) : Prop where
  empty : ∀ ns, ns = .alpha ∨ ns = .fam → ns ∉ s.left → s.core.device.nvs ns = some ∅
  pending : ∀ kind, ∀ w ∈ s.pending kind, w.ns = .num ∨ w.ns = .consum

theorem ns_of_mem_taskWrites {c : Core} {kind : TaskKind} {i : ℕ} {w : NvsWrite}
    (h : w ∈ taskWrites c kind i) : w.ns = .num ∨ w.ns = .consum := by
  cases kind with
  | brew =>
      rcases hpc : c.brew.tasks[i]? with _ | pc
      · simp [taskWrites, hpc] at h
      · exact ns_of_mem_brewStepWrites (by simpa [taskWrites, hpc] using h)
  | cycle =>
      rcases hpc : c.cycle.tasks[i]? with _ | pc
      · simp [taskWrites, hpc] at h
      · exact ns_of_mem_cycleStepWrites (by simpa [taskWrites, hpc] using h)

theorem NvsWrite.apply_of_ns_ne (nvs : Nvs) {w : NvsWrite} {ns : NvsNamespace} (h : ns ≠ w.ns) :
    w.apply nvs ns = nvs ns := by
  cases w <;> exact Function.update_of_ne h _ _

theorem forall_update_pending {P : NvsWrite → Prop} {pending : TaskKind → List NvsWrite}
    {kind : TaskKind} {writes : List NvsWrite} (h : ∀ kind', ∀ w ∈ pending kind', P w)
    (hwrites : ∀ w ∈ writes, P w) :
    ∀ kind', ∀ w ∈ Function.update pending kind writes kind', P w := by
  intro kind' w hw
  by_cases hkind : kind' = kind
  · subst hkind
    rw [Function.update_self] at hw
    exact hwrites w hw
  · rw [Function.update_of_ne hkind] at hw
    exact h kind' w hw

theorem othersEmpty_step (s : Resetting) (a : ResetAction) (h : s.OthersEmpty) :
    (resetStep s a).OthersEmpty := by
  cases a with
  | wipe =>
      refine ⟨fun ns hns => empty_of_wipe (h.empty ns hns), ?_⟩
      rcases hleft : s.left with _ | ⟨ns, rest⟩
      · simpa only [resetStep, hleft] using h.pending
      · simpa only [resetStep, hleft] using h.pending
  | task kind i =>
      rcases hpending : s.pending kind with _ | ⟨w, rest⟩
      · simp only [resetStep, hpending]
        exact ⟨h.empty, forall_update_pending h.pending fun _ => ns_of_mem_taskWrites⟩
      · have hmem : ∀ w' ∈ w :: rest, w'.ns = .num ∨ w'.ns = .consum := by
          rw [← hpending]
          exact h.pending kind
        simp only [resetStep, hpending]
        refine ⟨fun ns hns hleft => ?_, forall_update_pending h.pending fun w' hw' =>
          hmem w' (List.mem_cons_of_mem w hw')⟩
        have hw := hmem w List.mem_cons_self
        have hne : ns ≠ w.ns := by
          rintro rfl
          rcases hns with hns | hns <;> rcases hw with hw | hw <;> rw [hns] at hw <;> cases hw
        exact (NvsWrite.apply_of_ns_ne _ hne).trans (h.empty ns hns hleft)

/-- In every interleaving the alphanumeric registers and the family come up as
on empty flash. -/
theorem factoryReset_alpha_family (c : Core) (it : NvsIterator) (actions : List ResetAction)
    (hdone : (Runs.run resetStep (Resetting.start c) actions).left = []) :
    let c' := (Runs.run resetStep (Resetting.start c) actions).core
    (reboot it c').device.alpha = (Device.boot it Nvs.empty).alpha ∧
      (reboot it c').device.family = (Device.boot it Nvs.empty).family := by
  intro c'
  have hinit : (Resetting.start c).OthersEmpty :=
    { empty := fun ns _ hns => absurd (mem_resetNamespaces ns) hns
      pending := fun _ w hw => absurd hw List.not_mem_nil }
  have hothers := Runs.invariant othersEmpty_step hinit actions
  have hempty {ns : NvsNamespace} (hns : ns = .alpha ∨ ns = .fam) :
      c'.device.nvs.openReadwrite ns = Nvs.empty.openReadwrite ns := by
    rw [Nvs.openReadwrite, hothers.empty ns hns (by rw [hdone]; exact List.not_mem_nil)]
    rfl
  rw [reboot, appMain_device]
  exact alpha_family_boot (hempty (.inl rfl)) (hempty (.inr rfl)) it

end Nivona
