import NivonaEmulator.Lib.SequentialObject
import NivonaEmulator.RegisterTables
import Mathlib.Logic.Function.Basic

/-!
# Registers used by several tasks

Nothing locks the array of the numerical registers: the brew task, the cycle task,
the host task and the console scan it and store into it at the same time.  Here
every access to an entry is a step of its own.  Insertions of new registers can get
into each other's way, but a register that is there when the tasks start is not
lost and behaves as if every call took effect at once.
-/

namespace Nivona

/-! ## Calls, access by access -/

/-- A call on the numerical registers; a write or an erasure without its part in
NVS. -/
inductive NumCall
  | get (id : Int16)
  | has (id : Int16)
  | set (id : Int16) (value : Int32)
  | erase (id : Int16)
  deriving DecidableEq, Repr

def NumCall.id : NumCall → Int16
  | .get id | .has id | .set id _ | .erase id => id

/-- What a call comes back with. -/
inductive NumAnswer
  | value (v : Int32)
  | found (b : Bool)
  | done
  /-- the table was full -/
  | dropped
  deriving DecidableEq, Repr

/-- Where a call stands: before which access to which entry. -/
inductive NumPoint
  | idle
  /-- `s_num[i].used` -/
  | testUsed (c : NumCall) (i : ℕ) (freeSlot : Option ℕ)
  /-- `s_num[i].id == id` -/
  | testId (c : NumCall) (i : ℕ) (freeSlot : Option ℕ)
  /-- `!s_num[i].used` -/
  | testFree (id : Int16) (value : Int32) (i : ℕ) (freeSlot : Option ℕ)
  /-- the entry of the id is found -/
  | hit (c : NumCall) (i : ℕ)
  | clearValue (id : Int16) (i : ℕ)
  | storeId (id : Int16) (value : Int32) (slot : ℕ)
  | storeValue (id : Int16) (value : Int32) (slot : ℕ)
  | storeUsed (id : Int16) (value : Int32) (slot : ℕ)
  deriving DecidableEq, Repr

/-- The arrays, the tasks, and the calls that have returned. -/
structure NumTasks (ι : Type*) where
  tables : RegisterTables
  point : ι → NumPoint
  answered : List (NumCall × NumAnswer)

inductive NumStep (ι : Type*)
  | call (τ : ι) (c : NumCall)
  | resume (τ : ι)

/-- One entry changes. -/
def RegisterTables.updateNum (t : RegisterTables) (i : ℕ) (f : NumEntry → NumEntry) :
    RegisterTables :=
  { t with num := SlotArray.update t.num i f }

section

variable {ι : Type*} [DecidableEq ι]

def NumTasks.go (s : NumTasks ι) (τ : ι) (p : NumPoint) : NumTasks ι :=
  { s with point := Function.update s.point τ p }

/-- The call returns. -/
def NumTasks.answer (s : NumTasks ι) (τ : ι) (c : NumCall) (a : NumAnswer) : NumTasks ι :=
  { s with point := Function.update s.point τ .idle, answered := s.answered ++ [(c, a)] }

/-- Behind the last entry. -/
def NumTasks.loopEnd (s : NumTasks ι) (τ : ι) (freeSlot : Option ℕ) : NumCall → NumTasks ι
  | .get id => s.answer τ (.get id) (.value 0)
  | .has id => s.answer τ (.has id) (.found false)
  | .set id value =>
      match freeSlot with
      | none => s.answer τ (.set id value) .dropped
      | some slot => s.go τ (.storeId id value slot)
  | .erase id => s.answer τ (.erase id) .done

/-- The entry is not the one looked for. -/
def NumTasks.pass (s : NumTasks ι) (τ : ι) (i : ℕ) (freeSlot : Option ℕ) : NumCall → NumTasks ι
  | .set id value => s.go τ (.testFree id value i freeSlot)
  | c => s.go τ (.testUsed c (i + 1) freeSlot)

/-- The next access of a task. -/
def numResume (s : NumTasks ι) (τ : ι) : NumTasks ι :=
  match s.point τ with
  | .idle => s
  | .testUsed c i freeSlot =>
      match s.tables.num[i]? with
      | none => s.loopEnd τ freeSlot c
      | some e => if e.used then s.go τ (.testId c i freeSlot) else s.pass τ i freeSlot c
  | .testId c i freeSlot =>
      if s.tables.num[i]?.map NumEntry.id = some c.id then s.go τ (.hit c i)
      else s.pass τ i freeSlot c
  | .testFree id value i freeSlot =>
      let free := s.tables.num[i]?.map NumEntry.used = some false ∧ freeSlot = none
      s.go τ (.testUsed (.set id value) (i + 1) (if free then some i else freeSlot))
  | .hit (.get id) i =>
      s.answer τ (.get id) (.value ((s.tables.num[i]?.map NumEntry.value).getD 0))
  | .hit (.has id) _ => s.answer τ (.has id) (.found true)
  | .hit (.set id value) i =>
      { s with tables := s.tables.updateNum i fun e => { e with value := value } }.answer τ
        (.set id value) .done
  | .hit (.erase id) i =>
      { s with tables := s.tables.updateNum i fun e => { e with used := false } }.go τ
        (.clearValue id i)
  | .clearValue id i =>
      { s with tables := s.tables.updateNum i fun e => { e with value := 0 } }.answer τ
        (.erase id) .done
  | .storeId id value slot =>
      { s with tables := s.tables.updateNum slot fun e => { e with id := id } }.go τ
        (.storeValue id value slot)
  | .storeValue id value slot =>
      { s with tables := s.tables.updateNum slot fun e => { e with value := value } }.go τ
        (.storeUsed id value slot)
  | .storeUsed id value slot =>
      { s with tables := s.tables.updateNum slot fun e => { e with used := true } }.answer τ
        (.set id value) .done

/-- A task makes its next call once the last one has returned. -/
def numStep (s : NumTasks ι) : NumStep ι → NumTasks ι
  | .call τ c =>
      match s.point τ with
      | .idle => s.go τ (.testUsed c 0 none)
      | _ => s
  | .resume τ => numResume s τ

/-- Tasks that have not called anything yet. -/
def NumTasks.start (t : RegisterTables) : NumTasks ι :=
  { tables := t, point := fun _ => .idle, answered := [] }

end

/-! ## A call that is not interrupted -/

/-- The call as one step. -/
def NumCall.whole (t : RegisterTables) : NumCall → RegisterTables × NumAnswer
  | .get id => (t, .value (t.getNum id))
  | .has id => (t, .found (t.hasNum id))
  | .set id value =>
      (t.setNumMem id value,
        match SlotArray.scan NumEntry.used NumEntry.id id t.num.toList 0 none with
        | .full => .dropped
        | _ => .done)
  | .erase id => (t.eraseNum id, .done)

section

variable {ι : Type*} [DecidableEq ι] {τ : ι}

/-- The task alone gets from one state to the other. -/
def Reaches (τ : ι) (s s' : NumTasks ι) : Prop :=
  ∃ k, Runs.run numStep s (List.replicate k (.resume τ)) = s'

theorem Reaches.refl (s : NumTasks ι) : Reaches τ s s :=
  ⟨0, rfl⟩

theorem Reaches.head {s s' : NumTasks ι} (h : Reaches τ (numResume s τ) s') :
    Reaches τ s s' := by
  obtain ⟨k, hk⟩ := h
  exact ⟨k + 1, hk⟩

theorem Reaches.trans {s s' s₂ : NumTasks ι} (h : Reaches τ s s') (h' : Reaches τ s' s₂) :
    Reaches τ s s₂ := by
  obtain ⟨k, rfl⟩ := h
  obtain ⟨k', rfl⟩ := h'
  refine ⟨k + k', ?_⟩
  rw [List.replicate_add, Runs.run_append]

@[simp] theorem go_point (s : NumTasks ι) (τ : ι) (q : NumPoint) : (s.go τ q).point τ = q :=
  Function.update_self ..

@[simp] theorem go_tables (s : NumTasks ι) (τ : ι) (q : NumPoint) :
    (s.go τ q).tables = s.tables := rfl

@[simp] theorem go_go (s : NumTasks ι) (τ : ι) (q q' : NumPoint) :
    (s.go τ q).go τ q' = s.go τ q' := by
  simp [NumTasks.go]

@[simp] theorem go_answer (s : NumTasks ι) (τ : ι) (q : NumPoint) (c : NumCall)
    (a : NumAnswer) : (s.go τ q).answer τ c a = s.answer τ c a := by
  simp [NumTasks.go, NumTasks.answer]

@[simp] theorem go_loopEnd (s : NumTasks ι) (τ : ι) (q : NumPoint) (freeSlot : Option ℕ)
    (c : NumCall) : (s.go τ q).loopEnd τ freeSlot c = s.loopEnd τ freeSlot c := by
  cases c <;> cases freeSlot <;> simp [NumTasks.loopEnd]

@[simp] theorem go_pass (s : NumTasks ι) (τ : ι) (q : NumPoint) (i : ℕ)
    (freeSlot : Option ℕ) (c : NumCall) :
    (s.go τ q).pass τ i freeSlot c = s.pass τ i freeSlot c := by
  cases c <;> simp [NumTasks.pass]

/-- The loop of a read or an erasure. -/
theorem reaches_find (s : NumTasks ι) (c : NumCall) (hc : ∀ id value, c ≠ .set id value)
    (rest : List NumEntry) (i : ℕ) (hrest : s.tables.num.toList.drop i = rest) :
    Reaches τ (s.go τ (.testUsed c i none))
      (match SlotArray.find NumEntry.used NumEntry.id c.id rest i with
      | some j => s.go τ (.hit c j)
      | none => s.loopEnd τ none c) := by
  have hpass (i : ℕ) : s.pass τ i none c = s.go τ (.testUsed c (i + 1) none) := by
    cases c with
    | set id value => exact absurd rfl (hc id value)
    | _ => rfl
  induction rest generalizing i with
  | nil =>
      have hend : s.tables.num[i]? = none := by
        rw [← Vector.getElem?_toList]
        exact List.getElem?_eq_none (List.drop_eq_nil_iff.mp hrest)
      refine .head ?_
      simp only [numResume, go_point, go_tables, hend, go_loopEnd, SlotArray.find]
      exact .refl _
  | cons e rest ih =>
      have hget : s.tables.num[i]? = some e := by
        rw [← Vector.getElem?_toList, ← List.head?_drop, hrest]
        rfl
      have hnext := ih (i + 1) (by rw [← List.tail_drop, hrest]; rfl)
      refine .head ?_
      simp only [numResume, go_point, go_tables, hget, go_go, go_pass]
      by_cases hused : e.used = true
      · rw [if_pos hused]
        refine .head ?_
        simp only [numResume, go_point, go_tables, hget, go_go, go_pass, Option.map_some,
          Option.some.injEq]
        by_cases hid : e.id = c.id
        · rw [if_pos hid, SlotArray.find, if_pos ⟨hused, hid⟩]
          exact .refl _
        · rw [if_neg hid, hpass, SlotArray.find, if_neg fun h => hid h.2]
          exact hnext
      · rw [if_neg hused, hpass, SlotArray.find, if_neg fun h => hused h.1]
        exact hnext

/-- The loop of a write. -/
theorem reaches_scan (s : NumTasks ι) (id : Int16) (value : Int32) (rest : List NumEntry)
    (i : ℕ) (freeSlot : Option ℕ) (hrest : s.tables.num.toList.drop i = rest) :
    Reaches τ (s.go τ (.testUsed (.set id value) i freeSlot))
      (match SlotArray.scan NumEntry.used NumEntry.id id rest i freeSlot with
      | .present j => s.go τ (.hit (.set id value) j)
      | .free j => s.go τ (.storeId id value j)
      | .full => s.answer τ (.set id value) .dropped) := by
  induction rest generalizing i freeSlot with
  | nil =>
      have hend : s.tables.num[i]? = none := by
        rw [← Vector.getElem?_toList]
        exact List.getElem?_eq_none (List.drop_eq_nil_iff.mp hrest)
      refine .head ?_
      simp only [numResume, go_point, go_tables, hend, go_loopEnd]
      cases freeSlot <;> exact .refl _
  | cons e rest ih =>
      have hget : s.tables.num[i]? = some e := by
        rw [← Vector.getElem?_toList, ← List.head?_drop, hrest]
        rfl
      have hnext (freeSlot : Option ℕ) :=
        ih (i + 1) freeSlot (by rw [← List.tail_drop, hrest]; rfl)
      have hfree : Reaches τ (s.go τ (.testFree id value i freeSlot))
          (s.go τ (.testUsed (.set id value) (i + 1)
            (if e.used = false ∧ freeSlot = none then some i else freeSlot))) := by
        refine .head ?_
        simp only [numResume, go_point, go_tables, hget, go_go, Option.map_some,
          Option.some.injEq]
        exact .refl _
      refine .head ?_
      simp only [numResume, go_point, go_tables, hget, go_go, go_pass]
      by_cases hused : e.used = true
      · have hkept : (if e.used = false ∧ freeSlot = none then some i else freeSlot) =
            freeSlot := by
          rw [if_neg (by simp [hused])]
        rw [if_pos hused]
        refine .head ?_
        simp only [numResume, go_point, go_tables, hget, go_go, go_pass, Option.map_some,
          Option.some.injEq, NumCall.id]
        by_cases hid : e.id = id
        · rw [if_pos hid, SlotArray.scan, if_pos ⟨hused, hid⟩]
          exact .refl _
        · rw [if_neg hid, SlotArray.scan, if_neg fun h => hid h.2, if_neg (by simp [hused])]
          rw [hkept] at hfree
          exact hfree.trans (hnext freeSlot)
      · have hunused : e.used = false := Bool.eq_false_of_not_eq_true hused
        rw [if_neg hused, SlotArray.scan, if_neg fun h => hused h.1]
        refine hfree.trans ?_
        by_cases hnone : freeSlot = none
        · rw [if_pos ⟨hunused, hnone⟩, if_pos ⟨hunused, hnone⟩]
          exact hnext (some i)
        · rw [if_neg fun h => hnone h.2, if_neg fun h => hnone h.2]
          exact hnext freeSlot

theorem updateNum_updateNum (t : RegisterTables) (i : ℕ) (f g : NumEntry → NumEntry) :
    (t.updateNum i f).updateNum i g = t.updateNum i (g ∘ f) := by
  rw [RegisterTables.updateNum, RegisterTables.updateNum, RegisterTables.updateNum]
  congr 1
  simp only [SlotArray.update]
  split
  · simp
  · rfl

theorem go_withTables (s : NumTasks ι) (τ : ι) (q q' : NumPoint) (t : RegisterTables) :
    NumTasks.go { s.go τ q with tables := t } τ q' = { s.go τ q' with tables := t } := by
  simp [NumTasks.go]

/-- The task has returned, and the others stand where they stood. -/
theorem answer_back (s : NumTasks ι) (hidle : s.point τ = .idle) (q : NumPoint)
    (t : RegisterTables) (c : NumCall) (a : NumAnswer) :
    NumTasks.answer { s.go τ q with tables := t } τ c a =
      { tables := t, point := s.point, answered := s.answered ++ [(c, a)] } := by
  have hpoint : Function.update (Function.update s.point τ q) τ NumPoint.idle = s.point := by
    rw [Function.update_idem, ← hidle, Function.update_eq_self]
  simp only [NumTasks.answer, NumTasks.go, hpoint]

/-- Without other tasks a call does what it does in one step. -/
theorem reaches_whole (s : NumTasks ι) (τ : ι) (hidle : s.point τ = .idle) (c : NumCall) :
    Reaches τ (numStep s (.call τ c))
      { tables := (c.whole s.tables).1
        point := s.point
        answered := s.answered ++ [(c, (c.whole s.tables).2)] } := by
  have hdone (c : NumCall) (a : NumAnswer) : s.answer τ c a =
      { tables := s.tables, point := s.point, answered := s.answered ++ [(c, a)] } := by
    rw [← answer_back s hidle .idle s.tables c a, ← go_answer s τ .idle c a]
    rfl
  simp only [numStep, hidle]
  cases c with
  | get id =>
      refine (reaches_find s (.get id) (by simp) s.tables.num.toList 0 rfl).trans ?_
      simp only [NumCall.whole, RegisterTables.getNum, NumCall.id]
      rcases SlotArray.find NumEntry.used NumEntry.id id s.tables.num.toList 0 with _ | j
      · rw [NumTasks.loopEnd, hdone]
        exact .refl _
      · refine .head ?_
        simp only [numResume, go_point, go_tables, go_answer, hdone]
        exact .refl _
  | has id =>
      refine (reaches_find s (.has id) (by simp) s.tables.num.toList 0 rfl).trans ?_
      simp only [NumCall.whole, RegisterTables.hasNum, NumCall.id]
      rcases SlotArray.find NumEntry.used NumEntry.id id s.tables.num.toList 0 with _ | j
      · rw [NumTasks.loopEnd, hdone]
        exact .refl _
      · refine .head ?_
        simp only [numResume, go_point, go_answer, hdone]
        exact .refl _
  | set id value =>
      refine (reaches_scan s id value s.tables.num.toList 0 none rfl).trans ?_
      simp only [NumCall.whole, RegisterTables.setNumMem]
      rcases SlotArray.scan NumEntry.used NumEntry.id id s.tables.num.toList 0 none
        with j | j | _
      · refine .head ?_
        simp only [numResume, go_point, go_tables]
        rw [answer_back s hidle]
        exact .refl _
      · refine .head ?_
        simp only [numResume, go_point, go_tables]
        rw [go_withTables]
        refine .head ?_
        simp only [numResume, go_point]
        rw [go_withTables, updateNum_updateNum]
        refine .head ?_
        simp only [numResume, go_point]
        rw [answer_back s hidle, updateNum_updateNum]
        exact .refl _
      · rw [hdone]
        exact .refl _
  | erase id =>
      refine (reaches_find s (.erase id) (by simp) s.tables.num.toList 0 rfl).trans ?_
      simp only [NumCall.whole, RegisterTables.eraseNum, NumCall.id]
      rcases SlotArray.find NumEntry.used NumEntry.id id s.tables.num.toList 0 with _ | j
      · rw [NumTasks.loopEnd, hdone]
        exact .refl _
      · refine .head ?_
        simp only [numResume, go_point, go_tables]
        rw [go_withTables]
        refine .head ?_
        simp only [numResume, go_point]
        rw [answer_back s hidle, updateNum_updateNum]
        exact .refl _

end

/-! ## One entry changes -/

theorem RegisterTables.getElem?_updateNum (t : RegisterTables) (i j : ℕ)
    (f : NumEntry → NumEntry) :
    (t.updateNum i f).num[j]? = if j = i then t.num[j]?.map f else t.num[j]? := by
  rw [updateNum, SlotArray.update]
  by_cases hi : i < NUM_CAP
  · rw [dif_pos hi]
    by_cases hj : j = i
    · subst hj
      simp [hi]
    · rw [if_neg hj, Vector.getElem?_set_ne hi (Ne.symm hj)]
  · rw [dif_neg hi]
    by_cases hj : j = i
    · subst hj
      have hnone : t.num[j]? = none := Vector.getElem?_eq_none (Nat.le_of_not_lt hi)
      simp [hnone]
    · rw [if_neg hj]

/-- Entry `p` is in use for the register, and no other entry is. -/
structure RegisterTables.Held (id : Int16) (p : ℕ) (t : RegisterTables) : Prop where
  here : ∃ e, t.num[p]? = some e ∧ e.used = true ∧ e.id = id
  only : ∀ j e, j ≠ p → t.num[j]? = some e → e.used = true → e.id ≠ id

/-- The entry does not carry the register's id, in use or not. -/
def RegisterTables.Elsewhere (id : Int16) (j : ℕ) (t : RegisterTables) : Prop :=
  ∀ e, t.num[j]? = some e → e.id ≠ id

section

variable {id : Int16} {p : ℕ} {t : RegisterTables}

theorem RegisterTables.Held.lt (h : t.Held id p) : p < NUM_CAP := by
  obtain ⟨e, he, -, -⟩ := h.here
  exact (Vector.getElem?_eq_some_iff.mp he).1

/-- A change of the held entry that leaves it in use for the register. -/
theorem RegisterTables.Held.updateHere (h : t.Held id p) {f : NumEntry → NumEntry}
    (hused : ∀ e, (f e).used = e.used) (hid : ∀ e, (f e).id = e.id) :
    (t.updateNum p f).Held id p := by
  obtain ⟨e, he, hin, hhere⟩ := h.here
  constructor
  · refine ⟨f e, ?_, by rw [hused, hin], by rw [hid, hhere]⟩
    rw [getElem?_updateNum, if_pos rfl, he]
    rfl
  · intro j e' hj he'
    rw [getElem?_updateNum, if_neg hj] at he'
    exact h.only j e' hj he'

/-- A change of another entry that does not put it in use for the register. -/
theorem RegisterTables.Held.updateOther (h : t.Held id p) {i : ℕ} (hi : i ≠ p)
    {f : NumEntry → NumEntry}
    (hf : ∀ e, t.num[i]? = some e → (f e).used = true → (f e).id ≠ id) :
    (t.updateNum i f).Held id p := by
  obtain ⟨e, he, hin, hhere⟩ := h.here
  constructor
  · refine ⟨e, ?_, hin, hhere⟩
    rw [getElem?_updateNum, if_neg (Ne.symm hi), he]
  · intro j e' hj he' hin'
    rw [getElem?_updateNum] at he'
    by_cases hji : j = i
    · rw [if_pos hji, hji] at he'
      obtain ⟨e₀, he₀, rfl⟩ := Option.map_eq_some_iff.mp he'
      exact hf e₀ he₀ hin'
    · rw [if_neg hji] at he'
      exact h.only j e' hj he' hin'

/-- A change that gives no entry the register's id. -/
theorem RegisterTables.Elsewhere.update {j : ℕ} (h : t.Elsewhere id j) (i : ℕ)
    {f : NumEntry → NumEntry} (hf : ∀ e, e.id ≠ id → (f e).id ≠ id) :
    (t.updateNum i f).Elsewhere id j := by
  intro e he
  rw [getElem?_updateNum] at he
  by_cases hji : j = i
  · rw [if_pos hji] at he
    obtain ⟨e₀, he₀, rfl⟩ := Option.map_eq_some_iff.mp he
    exact hf e₀ (h e₀ he₀)
  · rw [if_neg hji] at he
    exact h e he

end

/-! ## A register that is there stays there -/

/-- What a task is about to do leaves the register's entry alone or belongs to a call on
the register. -/
def NumPoint.Ok (id : Int16) (p : ℕ) (t : RegisterTables) : NumPoint → Prop
  | .idle => True
  | .testUsed c i freeSlot => c ≠ .erase id ∧ freeSlot ≠ some p ∧ (c.id = id → i ≤ p)
  | .testId c i freeSlot =>
      c ≠ .erase id ∧ freeSlot ≠ some p ∧ (c.id = id → i ≤ p) ∧ (i ≠ p → t.Elsewhere id i)
  | .testFree id' _ i freeSlot => freeSlot ≠ some p ∧ (id' = id → i < p)
  | .hit c i => c ≠ .erase id ∧ (i = p ↔ c.id = id)
  | .clearValue id' i => id' ≠ id ∧ i ≠ p
  | .storeId id' _ slot => id' ≠ id ∧ slot ≠ p
  | .storeValue id' _ slot => id' ≠ id ∧ slot ≠ p ∧ t.Elsewhere id slot
  | .storeUsed id' _ slot => id' ≠ id ∧ slot ≠ p ∧ t.Elsewhere id slot

structure NumTasks.Keeps {ι : Type*} (id : Int16) (p : ℕ) (s : NumTasks ι) : Prop where
  held : s.tables.Held id p
  point : ∀ τ, (s.point τ).Ok id p s.tables

/-- The calls on one register that have returned. -/
def NumTasks.answeredOn {ι : Type*} (id : Int16) (s : NumTasks ι) :
    List (NumCall × NumAnswer) :=
  s.answered.filter fun r => r.1.id = id

/-- What entry `p` holds. -/
def NumTasks.register {ι : Type*} (p : ℕ) (s : NumTasks ι) : Option Int32 :=
  s.tables.num[p]?.map NumEntry.value

/-- A register that every call finds at once. -/
def registerSpec : Option Int32 → NumCall → Option Int32 × NumAnswer
  | r, .get _ => (r, .value (r.getD 0))
  | r, .has _ => (r, .found r.isSome)
  | _, .set _ value => (some value, .done)
  | _, .erase _ => (none, .done)

section

variable {ι : Type*} [DecidableEq ι] {id : Int16} {p : ℕ} {s : NumTasks ι}

theorem NumPoint.Ok.update {q : NumPoint} {t : RegisterTables} (h : q.Ok id p t) (i : ℕ)
    {f : NumEntry → NumEntry} (hf : ∀ e, e.id ≠ id → (f e).id ≠ id) :
    q.Ok id p (t.updateNum i f) := by
  cases q with
  | testId c j freeSlot =>
      obtain ⟨hcall, hfree, hle, hother⟩ := h
      exact ⟨hcall, hfree, hle, fun hj => (hother hj).update i hf⟩
  | storeValue id' value slot =>
      obtain ⟨hid, hslot, hother⟩ := h
      exact ⟨hid, hslot, hother.update i hf⟩
  | storeUsed id' value slot =>
      obtain ⟨hid, hslot, hother⟩ := h
      exact ⟨hid, hslot, hother.update i hf⟩
  | _ => exact h

omit [DecidableEq ι] in
/-- One entry changes under the tasks. -/
theorem NumTasks.Keeps.onEntry (h : s.Keeps id p) {i : ℕ} {f : NumEntry → NumEntry}
    (hheld : (s.tables.updateNum i f).Held id p) (hf : ∀ e, e.id ≠ id → (f e).id ≠ id) :
    NumTasks.Keeps id p { s with tables := s.tables.updateNum i f } where
  held := hheld
  point τ := (h.point τ).update i hf

theorem NumTasks.Keeps.go (h : s.Keeps id p) (τ : ι) {q : NumPoint}
    (hq : q.Ok id p s.tables) : (s.go τ q).Keeps id p where
  held := h.held
  point τ' := by
    by_cases hτ : τ' = τ
    · rw [hτ, NumTasks.go]
      simpa using hq
    · have hsame : (s.go τ q).point τ' = s.point τ' := Function.update_of_ne hτ ..
      rw [hsame]
      exact h.point τ'

theorem NumTasks.Keeps.answer (h : s.Keeps id p) (τ : ι) (c : NumCall) (a : NumAnswer) :
    (s.answer τ c a).Keeps id p :=
  ⟨h.held, (h.go τ (q := .idle) trivial).point⟩

/-- A return from a call on another register. -/
theorem answeredOn_answer_of_ne (τ : ι) {c : NumCall} (hc : c.id ≠ id) (a : NumAnswer) :
    (s.answer τ c a).answeredOn id = s.answeredOn id := by
  simp [NumTasks.answeredOn, NumTasks.answer, hc]

theorem answeredOn_answer_self (τ : ι) {c : NumCall} (hc : c.id = id) (a : NumAnswer) :
    (s.answer τ c a).answeredOn id = s.answeredOn id ++ [(c, a)] := by
  simp [NumTasks.answeredOn, NumTasks.answer, hc]

/-- The entry stays the register's, and at most one call on it returns, with the answer of
the register. -/
def NumTasks.GoesOn (id : Int16) (p : ℕ) (s s' : NumTasks ι) : Prop :=
  s'.Keeps id p ∧ SequentialObject.Answers registerSpec (NumTasks.register p)
    (NumTasks.answeredOn id) s s'

theorem goesOn_go (h : s.Keeps id p) (τ : ι) {q : NumPoint} (hq : q.Ok id p s.tables) :
    s.GoesOn id p (s.go τ q) :=
  ⟨h.go τ hq, .inl ⟨rfl, rfl⟩⟩

/-- A call on another register returns. -/
theorem goesOn_answer_other (h : s.Keeps id p) (τ : ι) {c : NumCall} (hc : c.id ≠ id)
    (a : NumAnswer) : s.GoesOn id p (s.answer τ c a) :=
  ⟨h.answer τ c a, .inl ⟨answeredOn_answer_of_ne τ hc a, rfl⟩⟩

omit [DecidableEq ι] in
/-- A change of another entry. -/
theorem register_updateOther {i : ℕ} (hi : i ≠ p) (f : NumEntry → NumEntry) :
    NumTasks.register p { s with tables := s.tables.updateNum i f } = s.register p := by
  rw [NumTasks.register, RegisterTables.getElem?_updateNum, if_neg (Ne.symm hi)]
  rfl

omit [DecidableEq ι] in
/-- Another entry changes, and then the task goes on or returns. -/
theorem goesOn_onOther (h : s.Keeps id p) {i : ℕ} (hi : i ≠ p) (f : NumEntry → NumEntry)
    (hid : ∀ e, e.id ≠ id → (f e).id ≠ id)
    (hf : ∀ e, s.tables.num[i]? = some e → (f e).used = true → (f e).id ≠ id)
    {s' : NumTasks ι}
    (hnext : NumTasks.Keeps id p { s with tables := s.tables.updateNum i f } →
      NumTasks.GoesOn id p { s with tables := s.tables.updateNum i f } s') :
    s.GoesOn id p s' := by
  obtain ⟨hkeeps, hanswers⟩ := hnext (h.onEntry (h.held.updateOther hi hf) hid)
  refine ⟨hkeeps, ?_⟩
  rw [SequentialObject.Answers, register_updateOther hi f] at hanswers
  exact hanswers

theorem goesOn_loopEnd (h : s.Keeps id p) (τ : ι) {freeSlot : Option ℕ} {c : NumCall}
    (hc : c.id ≠ id) (hfree : freeSlot ≠ some p) :
    s.GoesOn id p (s.loopEnd τ freeSlot c) := by
  cases c with
  | set id' value =>
      rcases freeSlot with _ | slot
      · exact goesOn_answer_other h τ hc _
      · refine goesOn_go h τ ⟨hc, ?_⟩
        intro hslot
        exact hfree (by rw [hslot])
  | get id' => exact goesOn_answer_other h τ hc _
  | has id' => exact goesOn_answer_other h τ hc _
  | erase id' => exact goesOn_answer_other h τ hc _

theorem goesOn_pass (h : s.Keeps id p) (τ : ι) {i : ℕ} {freeSlot : Option ℕ} {c : NumCall}
    (hcall : c ≠ .erase id) (hfree : freeSlot ≠ some p) (hi : c.id = id → i < p) :
    s.GoesOn id p (s.pass τ i freeSlot c) := by
  cases c with
  | set id' value => exact goesOn_go h τ ⟨hfree, hi⟩
  | get id' => exact goesOn_go h τ ⟨hcall, hfree, hi⟩
  | has id' => exact goesOn_go h τ ⟨hcall, hfree, hi⟩
  | erase id' => exact goesOn_go h τ ⟨hcall, hfree, hi⟩

/-- The call has found its entry. -/
theorem goesOn_hit (h : s.Keeps id p) {τ : ι} {c : NumCall} {i : ℕ}
    (hpoint : s.point τ = .hit c i) : s.GoesOn id p (numResume s τ) := by
  have hok := h.point τ
  rw [hpoint] at hok
  obtain ⟨hcall, hi⟩ := hok
  obtain ⟨e, he, hin, hid⟩ := h.held.here
  have hregister : s.register p = some e.value := by rw [NumTasks.register, he, Option.map_some]
  by_cases hc : c.id = id
  · -- the call is on the register: it reads or writes entry `p`
    obtain rfl : i = p := hi.mpr hc
    cases c with
    | get id' =>
        simp only [numResume, hpoint]
        refine ⟨h.answer τ _ _, .inr ⟨.get id', ?_, rfl⟩⟩
        rw [answeredOn_answer_self τ hc]
        rfl
    | has id' =>
        simp only [numResume, hpoint]
        refine ⟨h.answer τ _ _, .inr ⟨.has id', ?_, rfl⟩⟩
        rw [answeredOn_answer_self τ hc, hregister]
        rfl
    | set id' value =>
        simp only [numResume, hpoint]
        have hheld : (s.tables.updateNum i fun e => { e with value := value }).Held id i :=
          h.held.updateHere (fun _ => rfl) fun _ => rfl
        refine ⟨(h.onEntry hheld fun _ hne => hne).answer τ _ _, .inr ⟨.set id' value, ?_, ?_⟩⟩
        · rw [answeredOn_answer_self τ hc]
          rfl
        · change ((s.tables.updateNum i fun e => { e with value := value }).num[i]?.map
            NumEntry.value) = some value
          rw [RegisterTables.getElem?_updateNum, if_pos rfl, he]
          rfl
    | erase id' => exact absurd (congrArg NumCall.erase hc) hcall
  · have hne : i ≠ p := fun heq => hc (hi.mp heq)
    cases c with
    | get id' =>
        simp only [numResume, hpoint]
        exact goesOn_answer_other h τ hc _
    | has id' =>
        simp only [numResume, hpoint]
        exact goesOn_answer_other h τ hc _
    | set id' value =>
        simp only [numResume, hpoint]
        exact goesOn_onOther h hne (fun e => { e with value := value })
          (fun _ hother => hother) (fun e' he' => h.held.only i e' hne he') fun hkeeps =>
            goesOn_answer_other hkeeps τ hc _
    | erase id' =>
        simp only [numResume, hpoint]
        refine goesOn_onOther h hne (fun e => { e with used := false })
          (fun _ hother => hother) ?_ fun hkeeps => goesOn_go hkeeps τ ⟨hc, hne⟩
        intro e' _ hused
        exact absurd hused Bool.false_ne_true

/-- One access. -/
theorem goesOn_resume (h : s.Keeps id p) (τ : ι) : s.GoesOn id p (numResume s τ) := by
  have hok := h.point τ
  obtain ⟨e, he, hin, hid⟩ := h.held.here
  cases hpoint : s.point τ with
  | idle =>
      simp only [numResume, hpoint]
      exact ⟨h, .inl ⟨rfl, rfl⟩⟩
  | testUsed c i freeSlot =>
      rw [hpoint] at hok
      obtain ⟨hcall, hfree, hle⟩ := hok
      simp only [numResume, hpoint]
      rcases hentry : s.tables.num[i]? with _ | e'
      · -- the loop does not get past the register's entry
        refine goesOn_loopEnd h τ ?_ hfree
        intro hc
        have hend := Vector.getElem?_eq_none_iff.mp hentry
        exact absurd (hle hc) (by have := h.held.lt; omega)
      · dsimp only
        by_cases hused : e'.used = true
        · rw [if_pos hused]
          refine goesOn_go h τ ⟨hcall, hfree, hle, ?_⟩
          intro hi e'' he''
          rw [hentry] at he''
          obtain rfl := Option.some.inj he''
          exact h.held.only i e' hi hentry hused
        · rw [if_neg hused]
          refine goesOn_pass h τ hcall hfree ?_
          intro hc
          refine Nat.lt_of_le_of_ne (hle hc) ?_
          rintro rfl
          rw [he] at hentry
          obtain rfl := Option.some.inj hentry
          exact hused hin
  | testId c i freeSlot =>
      rw [hpoint] at hok
      obtain ⟨hcall, hfree, hle, hother⟩ := hok
      simp only [numResume, hpoint]
      by_cases hmatch : s.tables.num[i]?.map NumEntry.id = some c.id
      · rw [if_pos hmatch]
        refine goesOn_go h τ ⟨hcall, ?_⟩
        constructor
        · rintro rfl
          rw [he] at hmatch
          exact (Option.some.inj hmatch).symm.trans hid
        · intro hc
          by_contra hi
          obtain ⟨e', he', hid'⟩ := Option.map_eq_some_iff.mp hmatch
          exact hother hi e' he' (hid'.trans hc)
      · rw [if_neg hmatch]
        refine goesOn_pass h τ hcall hfree ?_
        intro hc
        refine Nat.lt_of_le_of_ne (hle hc) ?_
        rintro rfl
        refine hmatch ?_
        rw [he, hc, ← hid]
        rfl
  | testFree id' value i freeSlot =>
      rw [hpoint] at hok
      obtain ⟨hfree, hlt⟩ := hok
      simp only [numResume, hpoint]
      refine goesOn_go h τ ⟨?_, ?_, hlt⟩
      · exact NumCall.noConfusion
      · split
        · rename_i hunused
          intro hi
          obtain rfl := Option.some.inj hi
          rw [he, Option.map_some, hin] at hunused
          exact absurd (Option.some.inj hunused.1) Bool.false_ne_true.symm
        · exact hfree
  | hit c i => exact goesOn_hit h hpoint
  | clearValue id' i =>
      rw [hpoint] at hok
      obtain ⟨hne, hi⟩ := hok
      simp only [numResume, hpoint]
      exact goesOn_onOther h hi (fun e => { e with value := 0 }) (fun _ hother => hother)
        (fun e' he' => h.held.only i e' hi he') fun hkeeps =>
          goesOn_answer_other hkeeps τ (c := .erase id') hne _
  | storeId id' value slot =>
      rw [hpoint] at hok
      obtain ⟨hne, hslot⟩ := hok
      simp only [numResume, hpoint]
      refine goesOn_onOther h hslot (fun e => { e with id := id' }) (fun _ _ => hne)
        (fun _ _ _ => hne) fun hkeeps => goesOn_go hkeeps τ ⟨hne, hslot, ?_⟩
      intro e' he'
      rw [RegisterTables.getElem?_updateNum, if_pos rfl] at he'
      obtain ⟨e₀, -, rfl⟩ := Option.map_eq_some_iff.mp he'
      exact hne
  | storeValue id' value slot =>
      rw [hpoint] at hok
      obtain ⟨hne, hslot, hother⟩ := hok
      simp only [numResume, hpoint]
      exact goesOn_onOther h hslot (fun e => { e with value := value }) (fun _ h' => h')
        (fun e' he' _ => hother e' he') fun hkeeps =>
          goesOn_go hkeeps τ ⟨hne, hslot, hother.update slot fun _ h' => h'⟩
  | storeUsed id' value slot =>
      rw [hpoint] at hok
      obtain ⟨hne, hslot, hother⟩ := hok
      simp only [numResume, hpoint]
      exact goesOn_onOther h hslot (fun e => { e with used := true }) (fun _ h' => h')
        (fun e' he' _ => hother e' he') fun hkeeps =>
          goesOn_answer_other hkeeps τ (c := .set id' value) hne _

end

/-! ## The table before and after -/

section

variable {id : Int16} {p : ℕ} {t : RegisterTables}

/-- The scan of a read stops at an entry of the register, or there is none. -/
theorem RegisterTables.find_cases (t : RegisterTables) (id : Int16) :
    (∃ q e, SlotArray.find NumEntry.used NumEntry.id id t.num.toList 0 = some q ∧
      t.num[q]? = some e ∧ e.used = true ∧ e.id = id) ∨
    (SlotArray.find NumEntry.used NumEntry.id id t.num.toList 0 = none ∧
      ∀ e ∈ t.num.toList, e.used = true → e.id ≠ id) := by
  rcases @SlotArray.find_cases NumEntry Int16 Int32 _ NumEntry.used NumEntry.id NumEntry.value id
    t.num.toList 0 with ⟨before, e, after, hsplit, hslot, -, hfind⟩ | ⟨hnone, hfind⟩
  · obtain ⟨hused, hkey, -⟩ := SlotArray.slot_eq_some_iff.mp hslot
    refine .inl ⟨before.length, e, ?_, ?_, hused, hkey⟩
    · rw [hfind, Nat.zero_add]
    · rw [← Vector.getElem?_toList, hsplit]
      simp
  · refine .inr ⟨hfind, ?_⟩
    intro e he hused hkey
    exact hnone ((SlotArray.mem_keys_slots NumEntry.value).mpr ⟨e, he, hused, hkey⟩)

theorem RegisterTables.Held.find (h : t.Held id p) :
    SlotArray.find NumEntry.used NumEntry.id id t.num.toList 0 = some p := by
  rcases t.find_cases id with ⟨q, e, hfind, he, hused, hkey⟩ | ⟨-, hnone⟩
  · rw [hfind]
    by_contra hne
    refine h.only q e ?_ he hused hkey
    rintro rfl
    exact hne rfl
  · obtain ⟨e, he, hin, hid⟩ := h.here
    rw [← Vector.getElem?_toList] at he
    exact absurd hid (hnone e (List.mem_of_getElem? he) hin)

theorem RegisterTables.Held.hasNum (h : t.Held id p) : t.hasNum id = true := by
  rw [RegisterTables.hasNum, h.find]
  rfl

theorem RegisterTables.Held.getNum (h : t.Held id p) :
    t.num[p]?.map NumEntry.value = some (t.getNum id) := by
  obtain ⟨e, he, -, -⟩ := h.here
  rw [RegisterTables.getNum, h.find, he]
  simp [he]

/-- A register of a table that was only used sequentially has one entry. -/
theorem RegisterTables.Agrees.held {m : RegisterMaps} (h : t.Agrees m)
    (hhas : t.hasNum id = true) : ∃ p, t.Held id p := by
  rw [RegisterTables.hasNum] at hhas
  rcases t.find_cases id with ⟨q, e, -, he, hused, hkey⟩ | ⟨hfind, -⟩
  · refine ⟨q, ⟨e, he, hused, hkey⟩, ?_⟩
    intro j e' hj he' hused' hkey'
    obtain ⟨hq, rfl⟩ := Vector.getElem?_eq_some_iff.mp he
    obtain ⟨hj', rfl⟩ := Vector.getElem?_eq_some_iff.mp he'
    exact hj (h.num_unique j q hj' hq hused' hused (hkey'.trans hkey.symm))
  · rw [hfind] at hhas
    exact absurd hhas Bool.false_ne_true

end

/-! ## Registers are atomic -/

section

variable {ι : Type*} [DecidableEq ι]

/-- Anything but an erasure of the register. -/
def NumStep.Spares {ι : Type*} (id : Int16) : NumStep ι → Prop
  | .call _ c => c ≠ .erase id
  | .resume _ => True

instance (id : Int16) (a : NumStep ι) : Decidable (a.Spares id) := by
  cases a with
  | call τ c => exact inferInstanceAs (Decidable (c ≠ .erase id))
  | resume τ => exact inferInstanceAs (Decidable True)

theorem goesOn_step {id : Int16} {p : ℕ} {s : NumTasks ι} (h : s.Keeps id p) {a : NumStep ι}
    (ha : a.Spares id) : s.GoesOn id p (numStep s a) := by
  cases a with
  | call τ c =>
      simp only [numStep]
      split
      · exact goesOn_go h τ ⟨ha, (Option.some_ne_none p).symm, fun _ => Nat.zero_le p⟩
      · exact ⟨h, .inl ⟨rfl, rfl⟩⟩
  | resume τ => exact goesOn_resume h τ

omit [DecidableEq ι] in
theorem keeps_start {id : Int16} {p : ℕ} {t : RegisterTables} (h : t.Held id p) :
    (NumTasks.start t : NumTasks ι).Keeps id p :=
  ⟨h, fun _ => trivial⟩

/-- A register that is there when the tasks start is never lost, whatever new registers they
insert and whatever else they erase: the calls on it get the answers they would get one after
another in the order in which they return. -/
theorem registers_atomic (ops : List TableOp) (id : Int16)
    (hhas : (Runs.run RegisterTables.step .empty ops).hasNum id = true)
    (steps : List (NumStep ι)) (hspares : ∀ a ∈ steps, a.Spares id) :
    let t := Runs.run RegisterTables.step .empty ops
    let s := Runs.run numStep (.start t) steps
    SequentialObject.Legal registerSpec (some (t.getNum id)) (s.answeredOn id) ∧
      s.tables.hasNum id = true ∧
      some (s.tables.getNum id) =
        SequentialObject.final registerSpec (some (t.getNum id)) (s.answeredOn id) := by
  intro t s
  obtain ⟨p, hheld⟩ := (RegisterTables.Implements.run ops).agrees.held hhas
  have hguarded : Runs.Guarded numStep (fun _ a => a.Spares id) (.start t) steps :=
    Runs.guarded_of_forall _ fun a ha _ => hspares a ha
  have hstep (s' : NumTasks ι) (a : NumStep ι) (hkeeps : s'.Keeps id p) (ha : a.Spares id) :
      (numStep s' a).Keeps id p ∧ SequentialObject.Answers registerSpec
        (NumTasks.register p) (NumTasks.answeredOn id) s' (numStep s' a) :=
    goesOn_step hkeeps ha
  have hend : s.Keeps id p :=
    hguarded.invariant (P := NumTasks.Keeps id p) (fun s' a hs' ha => (hstep s' a hs' ha).1)
      (keeps_start hheld)
  have hstart : NumTasks.register p (NumTasks.start t : NumTasks ι) = some (t.getNum id) :=
    hheld.getNum
  obtain ⟨hlegal, hfinal⟩ := SequentialObject.legal_run hstep hguarded (keeps_start hheld) rfl
  rw [hstart] at hlegal hfinal
  exact ⟨hlegal, hend.held.hasNum, hend.held.getNum.symm.trans hfinal⟩

end

/-- A gauge is read while another task is about to write it. -/
def gaugeSteps : List (NumStep Bool) :=
  [.call true (.set 600 7), .resume true, .call false (.get 600), .resume true, .resume false,
    .resume false, .resume false, .resume true]

/-- The read returns first, with the value from before the write. -/
theorem registers_atomic_gauge :
    let t := Runs.run RegisterTables.step .empty [.setNumMem 600 100]
    let s := Runs.run numStep (.start t) gaugeSteps
    (SequentialObject.Legal registerSpec (some (t.getNum 600)) (s.answeredOn 600) ∧
      s.tables.hasNum 600 = true ∧
      some (s.tables.getNum 600) =
        SequentialObject.final registerSpec (some (t.getNum 600)) (s.answeredOn 600)) ∧
      s.answeredOn 600 = [(.get 600, .value 100), (.set 600 7, .done)] :=
  ⟨registers_atomic _ 600 (by decide +kernel) gaugeSteps (by decide), by decide +kernel⟩

end Nivona
