import NivonaEmulator.RegisterTasks

/-!
# Registers and their entries in flash

`nivona_store_set_num` and `nivona_store_erase_num` change the array first and the
entry in flash after it, and nothing holds the two together.  When two tasks write
one register at the same time, the entry may keep the value that the array has lost.
Otherwise the entry is the register's value whenever no task is writing it, whatever
is done to the other registers meanwhile.
-/

namespace Nivona

/-- The call a task is in. -/
def NumPoint.call : NumPoint → Option NumCall
  | .idle => none
  | .testUsed c _ _ | .testId c _ _ | .hit c _ => some c
  | .testFree id value _ _ | .storeId id value _ | .storeValue id value _
  | .storeUsed id value _ => some (.set id value)
  | .clearValue id _ => some (.erase id)

/-- What a call does to flash: the value of an entry, or its removal. -/
def NumCall.entry : NumCall → Option (Int16 × Option Int32)
  | .set id value => some (id, some value)
  | .erase id => some (id, none)
  | .get _ | .has _ => none

/-- The tasks on the array, what each still has to do to flash, and flash. -/
structure FlashTasks (ι : Type*) where
  mem : NumTasks ι
  owed : ι → Option (Int16 × Option Int32)
  nvs : Nvs

inductive FlashStep (ι : Type*)
  | call (τ : ι) (c : NumCall)
  /-- the next access to the array -/
  | resume (τ : ι)
  /-- `nvs_set_i32` or `nvs_erase_key` -/
  | write (τ : ι)

/-- Write an entry of `niv_num`, or remove it. -/
def Nvs.putNum (nvs : Nvs) (id : Int16) : Option Int32 → Nvs
  | some value => nvs.set .num (makeKey id) (.i32 value)
  | none => nvs.eraseKey .num (makeKey id)

section

variable {ι : Type*} [DecidableEq ι]

/-- A task goes on to flash when it is done with the array, also where a full table has
dropped the register. -/
def flashStep (s : FlashTasks ι) : FlashStep ι → FlashTasks ι
  | .call τ c =>
      match s.owed τ with
      | none => { s with mem := numStep s.mem (.call τ c) }
      | some _ => s
  | .resume τ =>
      let mem := numStep s.mem (.resume τ)
      match mem.answered.drop s.mem.answered.length with
      | [] => { s with mem := mem }
      | r :: _ => { s with mem := mem, owed := Function.update s.owed τ r.1.entry }
  | .write τ =>
      match s.owed τ with
      | none => s
      | some (id, value) =>
          { s with owed := Function.update s.owed τ none, nvs := s.nvs.putNum id value }

/-- Tasks that have not called anything yet. -/
def FlashTasks.start (t : RegisterTables) (nvs : Nvs) : FlashTasks ι :=
  { mem := .start t, owed := fun _ => none, nvs := nvs }

end

/-- A task is inside `nivona_store_set_num` or `nivona_store_erase_num` on the register. -/
def FlashTasks.Writing {ι : Type*} (s : FlashTasks ι) (id : Int16) (τ : ι) : Prop :=
  (∃ c value, (s.mem.point τ).call = some c ∧ c.entry = some (id, value)) ∨
    ∃ value, s.owed τ = some (id, value)

/-- The register is not erased, and a task begins to write it only while no other does. -/
def FlashStep.Alone {ι : Type*} (id : Int16) (s : FlashTasks ι) : FlashStep ι → Prop
  | .call τ c => c ≠ .erase id ∧ ((∃ value, c = .set id value) → ∀ τ' ≠ τ, ¬s.Writing id τ')
  | .resume _ => True
  | .write _ => True

/-! ## What one access does -/

section

variable {ι : Type*} [DecidableEq ι]

/-- One access of a task: its call goes on, or returns. -/
inductive NumTasks.Resumed (s s' : NumTasks ι) (τ : ι) : Prop
  | within (hanswered : s'.answered = s.answered)
      (hcall : (s'.point τ).call = (s.point τ).call)
      (hothers : ∀ τ' ≠ τ, s'.point τ' = s.point τ')
  | returned {c : NumCall} {a : NumAnswer} (hcall : (s.point τ).call = some c)
      (hanswered : s'.answered = s.answered ++ [(c, a)]) (hidle : s'.point τ = .idle)
      (hothers : ∀ τ' ≠ τ, s'.point τ' = s.point τ')

theorem resumed_go {s : NumTasks ι} {τ : ι} {q : NumPoint} (t : RegisterTables)
    (hcall : q.call = (s.point τ).call) :
    s.Resumed (NumTasks.go { s with tables := t } τ q) τ := by
  refine .within rfl ?_ ?_
  · rw [go_point, hcall]
  · intro τ' hτ
    exact Function.update_of_ne hτ ..

theorem resumed_answer {s : NumTasks ι} {τ : ι} {c : NumCall} (t : RegisterTables)
    (hcall : (s.point τ).call = some c) (a : NumAnswer) :
    s.Resumed (NumTasks.answer { s with tables := t } τ c a) τ := by
  refine .returned hcall rfl (Function.update_self ..) ?_
  intro τ' hτ
  exact Function.update_of_ne hτ ..

theorem resumed_loopEnd {s : NumTasks ι} {τ : ι} {c : NumCall}
    (hcall : (s.point τ).call = some c) (freeSlot : Option ℕ) :
    s.Resumed (s.loopEnd τ freeSlot c) τ := by
  cases c with
  | set id value =>
      rcases freeSlot with _ | slot
      · exact resumed_answer s.tables hcall _
      · exact resumed_go s.tables hcall.symm
  | get id => exact resumed_answer s.tables hcall _
  | has id => exact resumed_answer s.tables hcall _
  | erase id => exact resumed_answer s.tables hcall _

theorem resumed_pass {s : NumTasks ι} {τ : ι} {c : NumCall}
    (hcall : (s.point τ).call = some c) (i : ℕ) (freeSlot : Option ℕ) :
    s.Resumed (s.pass τ i freeSlot c) τ := by
  cases c <;> exact resumed_go s.tables hcall.symm

theorem resumed_numResume (s : NumTasks ι) (τ : ι) : s.Resumed (numResume s τ) τ := by
  cases hpoint : s.point τ with
  | idle =>
      simp only [numResume, hpoint]
      exact .within rfl rfl fun _ _ => rfl
  | testUsed c i freeSlot =>
      have hcall : (s.point τ).call = some c := by rw [hpoint, NumPoint.call]
      simp only [numResume, hpoint]
      split
      · exact resumed_loopEnd hcall freeSlot
      · split
        · exact resumed_go s.tables hcall.symm
        · exact resumed_pass hcall i freeSlot
  | testId c i freeSlot =>
      have hcall : (s.point τ).call = some c := by rw [hpoint, NumPoint.call]
      simp only [numResume, hpoint]
      split
      · exact resumed_go s.tables hcall.symm
      · exact resumed_pass hcall i freeSlot
  | hit c i =>
      have hcall : (s.point τ).call = some c := by rw [hpoint, NumPoint.call]
      cases c with
      | get id =>
          simp only [numResume, hpoint]
          exact resumed_answer s.tables hcall _
      | has id =>
          simp only [numResume, hpoint]
          exact resumed_answer s.tables hcall _
      | set id value =>
          simp only [numResume, hpoint]
          exact resumed_answer _ hcall _
      | erase id =>
          simp only [numResume, hpoint]
          exact resumed_go _ hcall.symm
  | testFree id value i freeSlot =>
      simp only [numResume, hpoint]
      exact resumed_go s.tables (by rw [hpoint]; rfl)
  | clearValue id i =>
      simp only [numResume, hpoint]
      exact resumed_answer _ (by rw [hpoint]; rfl) _
  | storeId id value slot =>
      simp only [numResume, hpoint]
      exact resumed_go _ (by rw [hpoint]; rfl)
  | storeValue id value slot =>
      simp only [numResume, hpoint]
      exact resumed_go _ (by rw [hpoint]; rfl)
  | storeUsed id value slot =>
      simp only [numResume, hpoint]
      exact resumed_answer _ (by rw [hpoint]; rfl) _

end

/-- No task is about to erase the register. -/
theorem NumPoint.Ok.call_ne {id : Int16} {p : ℕ} {t : RegisterTables} {q : NumPoint}
    (h : q.Ok id p t) : q.call ≠ some (.erase id) := by
  intro hcall
  cases q with
  | idle => exact absurd hcall (by simp [NumPoint.call])
  | testUsed c i freeSlot => exact h.1 (Option.some.inj hcall)
  | testId c i freeSlot => exact h.1 (Option.some.inj hcall)
  | hit c i => exact h.1 (Option.some.inj hcall)
  | clearValue id' i => exact h.1 (NumCall.erase.inj (Option.some.inj hcall))
  | testFree id' value i freeSlot => exact absurd (Option.some.inj hcall) (by simp)
  | storeId id' value slot => exact absurd (Option.some.inj hcall) (by simp)
  | storeValue id' value slot => exact absurd (Option.some.inj hcall) (by simp)
  | storeUsed id' value slot => exact absurd (Option.some.inj hcall) (by simp)

/-! ## The entry of the register -/

theorem getI32_putNum_self (nvs : Nvs) (id : Int16) (value : Int32) :
    (nvs.putNum id (some value)).getI32 .num (makeKey id) = some value := by
  simp [Nvs.putNum, Nvs.getI32]

theorem getI32_putNum_of_ne (nvs : Nvs) {id id' : Int16} (hne : id' ≠ id)
    (value : Option Int32) :
    (nvs.putNum id' value).getI32 .num (makeKey id) = nvs.getI32 .num (makeKey id) := by
  have hkey : makeKey id ≠ makeKey id' := fun heq => hne (makeKey_injective heq).symm
  cases value with
  | none => rw [Nvs.getI32, Nvs.putNum, Nvs.get_eraseKey_of_key_ne nvs hkey, Nvs.getI32]
  | some v => rw [Nvs.getI32, Nvs.putNum, Nvs.get_set_of_key_ne nvs hkey, Nvs.getI32]

/-- At most one task writes the register; it owes flash the value that is in the array, and
while nobody owes it anything the entry is that value. -/
structure FlashTasks.Ok {ι : Type*} (id : Int16) (p : ℕ) (s : FlashTasks ι) : Prop where
  keeps : s.mem.Keeps id p
  resting : ∀ τ r, s.owed τ = some r → s.mem.point τ = .idle
  alone : ∀ τ τ', s.Writing id τ → s.Writing id τ' → τ = τ'
  owes : ∀ τ value, s.owed τ = some (id, value) → value = s.mem.register p
  flash : (∀ τ value, s.owed τ ≠ some (id, value)) →
    s.nvs.getI32 .num (makeKey id) = s.mem.register p

section

variable {ι : Type*} [DecidableEq ι] {id : Int16} {p : ℕ} {s : FlashTasks ι}

theorem FlashTasks.Ok.call (h : s.Ok id p) {τ : ι} {c : NumCall}
    (halone : (FlashStep.call τ c).Alone id s) : (flashStep s (.call τ c)).Ok id p := by
  obtain ⟨herase, hset⟩ := halone
  simp only [flashStep]
  split
  · rename_i howed
    by_cases hidle : s.mem.point τ = .idle
    · have hstep : numStep s.mem (.call τ c) = s.mem.go τ (.testUsed c 0 none) := by
        simp only [numStep, hidle]
      have hkeeps : (s.mem.go τ (.testUsed c 0 none)).Keeps id p :=
        h.keeps.go τ ⟨herase, (Option.some_ne_none p).symm, fun _ => Nat.zero_le p⟩
      -- the others write what they wrote before
      have hothers (τ' : ι) (hτ : τ' ≠ τ) (hwriting : FlashTasks.Writing
          { s with mem := s.mem.go τ (.testUsed c 0 none) } id τ') : s.Writing id τ' := by
        have hsame : (s.mem.go τ (.testUsed c 0 none)).point τ' = s.mem.point τ' :=
          Function.update_of_ne hτ ..
        rw [FlashTasks.Writing] at hwriting ⊢
        dsimp only at hwriting
        rw [hsame] at hwriting
        exact hwriting
      have hself (hwriting : FlashTasks.Writing
          { s with mem := s.mem.go τ (.testUsed c 0 none) } id τ) :
          ∀ τ' ≠ τ, ¬s.Writing id τ' := by
        rcases hwriting with ⟨c', value, hcall, hentry⟩ | ⟨value, howes⟩
        · rw [go_point] at hcall
          obtain rfl := Option.some.inj hcall
          refine hset ?_
          cases c with
          | set id' v =>
              obtain ⟨rfl, -⟩ := Prod.mk.inj (Option.some.inj hentry)
              exact ⟨v, rfl⟩
          | erase id' =>
              obtain ⟨rfl, -⟩ := Prod.mk.inj (Option.some.inj hentry)
              exact absurd rfl herase
          | get id' => cases hentry
          | has id' => cases hentry
        · exact absurd (howed.symm.trans howes) (by simp)
      rw [hstep]
      refine ⟨hkeeps, ?_, ?_, h.owes, h.flash⟩
      · intro τ' r hr
        have hτ : τ' ≠ τ := by
          rintro rfl
          exact absurd (howed.symm.trans hr) (by simp)
        exact (Function.update_of_ne hτ ..).trans (h.resting τ' r hr)
      · intro τ₁ τ₂ h₁ h₂
        by_cases hτ₁ : τ₁ = τ
        · subst hτ₁
          by_contra hne
          exact hself h₁ τ₂ (Ne.symm hne) (hothers τ₂ (Ne.symm hne) h₂)
        · by_cases hτ₂ : τ₂ = τ
          · subst hτ₂
            exact absurd (hothers τ₁ hτ₁ h₁) (hself h₂ τ₁ hτ₁)
          · exact h.alone τ₁ τ₂ (hothers τ₁ hτ₁ h₁) (hothers τ₂ hτ₂ h₂)
    · have hstep : numStep s.mem (.call τ c) = s.mem := by
        simp only [numStep]
      rw [hstep]
      exact h
  · exact h

/-- An access that does not end a call leaves the register alone. -/
theorem FlashTasks.Ok.within (h : s.Ok id p) {τ : ι}
    (hanswered : (numResume s.mem τ).answered = s.mem.answered)
    (hcall : ((numResume s.mem τ).point τ).call = (s.mem.point τ).call)
    (hothers : ∀ τ' ≠ τ, (numResume s.mem τ).point τ' = s.mem.point τ') :
    FlashTasks.Ok id p { s with mem := numResume s.mem τ } := by
  obtain ⟨hkeeps, hanswers⟩ := goesOn_resume h.keeps τ
  have hregister : (numResume s.mem τ).register p = s.mem.register p := by
    rcases hanswers with ⟨-, hsame⟩ | ⟨c, hmore, -⟩
    · exact hsame
    · rw [NumTasks.answeredOn, hanswered] at hmore
      have hlength := congrArg List.length hmore
      rw [List.length_append, NumTasks.answeredOn] at hlength
      exact absurd hlength (by simp)
  have hpoint (τ' : ι) : ((numResume s.mem τ).point τ').call = (s.mem.point τ').call := by
    by_cases hτ : τ' = τ
    · rw [hτ, hcall]
    · rw [hothers τ' hτ]
  have hwriting (τ' : ι)
      (hnow : FlashTasks.Writing { s with mem := numResume s.mem τ } id τ') :
      s.Writing id τ' := by
    rw [FlashTasks.Writing] at hnow ⊢
    dsimp only at hnow
    rw [hpoint τ'] at hnow
    exact hnow
  refine ⟨hkeeps, ?_, fun τ₁ τ₂ h₁ h₂ => h.alone τ₁ τ₂ (hwriting τ₁ h₁) (hwriting τ₂ h₂), ?_, ?_⟩
  · intro τ' r hr
    have hidle := h.resting τ' r hr
    by_cases hτ : τ' = τ
    · subst hτ
      simp only [numResume, hidle]
    · exact (hothers τ' hτ).trans hidle
  · intro τ' value howes
    exact (h.owes τ' value howes).trans hregister.symm
  · intro hnobody
    exact (h.flash hnobody).trans hregister.symm

/-- The register after a call has returned. -/
theorem register_returned (h : s.Ok id p) {τ : ι} {c : NumCall} {a : NumAnswer}
    (hanswered : (numResume s.mem τ).answered = s.mem.answered ++ [(c, a)]) :
    c.id ≠ id ∧ (numResume s.mem τ).register p = s.mem.register p ∨
      c.id = id ∧ (numResume s.mem τ).register p =
        (registerSpec (s.mem.register p) c).1 := by
  obtain ⟨-, hanswers⟩ := goesOn_resume h.keeps τ
  by_cases hc : c.id = id
  · have hmore : (numResume s.mem τ).answeredOn id = s.mem.answeredOn id ++ [(c, a)] := by
      rw [NumTasks.answeredOn, hanswered, NumTasks.answeredOn]
      simp [hc]
    right
    refine ⟨hc, ?_⟩
    rcases hanswers with ⟨hsame, -⟩ | ⟨c', hmore', hregister⟩
    · have hlength := congrArg List.length (hmore.symm.trans hsame)
      rw [List.length_append] at hlength
      exact absurd hlength (by simp)
    · have hlast := List.append_cancel_left (hmore.symm.trans hmore')
      obtain ⟨rfl, -⟩ := Prod.mk.inj (List.cons.inj hlast).1
      exact hregister
  · have hnone : (numResume s.mem τ).answeredOn id = s.mem.answeredOn id := by
      rw [NumTasks.answeredOn, hanswered, NumTasks.answeredOn]
      simp [hc]
    left
    refine ⟨hc, ?_⟩
    rcases hanswers with ⟨-, hsame⟩ | ⟨c', hmore, -⟩
    · exact hsame
    · have hlength := congrArg List.length (hnone.symm.trans hmore)
      rw [List.length_append] at hlength
      exact absurd hlength (by simp)

/-- The call that ends is a write of the register, or it leaves the register alone. -/
theorem entry_returned (h : s.Ok id p) {τ : ι} {c : NumCall} {a : NumAnswer}
    (hcall : (s.mem.point τ).call = some c)
    (hanswered : (numResume s.mem τ).answered = s.mem.answered ++ [(c, a)]) :
    c.entry = some (id, (numResume s.mem τ).register p) ∨
      (∀ value, c.entry ≠ some (id, value)) ∧
        (numResume s.mem τ).register p = s.mem.register p := by
  have hregister := register_returned h hanswered
  cases c with
  | get id' =>
      refine .inr ⟨fun value hentry => ?_, ?_⟩
      · cases hentry
      · rcases hregister with ⟨-, hsame⟩ | ⟨-, hsame⟩
        · exact hsame
        · exact hsame
  | has id' =>
      refine .inr ⟨fun value hentry => ?_, ?_⟩
      · cases hentry
      · rcases hregister with ⟨-, hsame⟩ | ⟨-, hsame⟩
        · exact hsame
        · exact hsame
  | set id' v =>
      rcases hregister with ⟨hne, hsame⟩ | ⟨hid, hset⟩
      · refine .inr ⟨fun value hentry => ?_, hsame⟩
        exact hne (Prod.mk.inj (Option.some.inj hentry)).1
      · left
        rw [hset, ← show id' = id from hid]
        rfl
  | erase id' =>
      have hne : id' ≠ id := by
        rintro rfl
        exact (h.keeps.point τ).call_ne hcall
      rcases hregister with ⟨-, hsame⟩ | ⟨hid, -⟩
      · refine .inr ⟨fun value hentry => ?_, hsame⟩
        exact hne (Prod.mk.inj (Option.some.inj hentry)).1
      · exact absurd hid hne

theorem FlashTasks.Ok.returned (h : s.Ok id p) {τ : ι} {c : NumCall} {a : NumAnswer}
    (hcall : (s.mem.point τ).call = some c)
    (hanswered : (numResume s.mem τ).answered = s.mem.answered ++ [(c, a)])
    (hidle : (numResume s.mem τ).point τ = .idle)
    (hothers : ∀ τ' ≠ τ, (numResume s.mem τ).point τ' = s.mem.point τ') :
    FlashTasks.Ok id p
      { s with mem := numResume s.mem τ, owed := Function.update s.owed τ c.entry } := by
  obtain ⟨hkeeps, -⟩ := goesOn_resume h.keeps τ
  have hentry := entry_returned h hcall hanswered
  have howed (τ' : ι) (hτ : τ' ≠ τ) : Function.update s.owed τ c.entry τ' = s.owed τ' :=
    Function.update_of_ne hτ ..
  have hnothing : s.owed τ = none := by
    rcases hr : s.owed τ with _ | r
    · rfl
    · rw [h.resting τ r hr] at hcall
      cases hcall
  have hwriting (τ' : ι) (hnow : FlashTasks.Writing
      { s with mem := numResume s.mem τ, owed := Function.update s.owed τ c.entry } id τ') :
      s.Writing id τ' := by
    rcases hnow with ⟨c', value, hcall', hentry'⟩ | ⟨value, howes⟩
    · by_cases hτ : τ' = τ
      · subst hτ
        dsimp only at hcall'
        rw [hidle] at hcall'
        cases hcall'
      · dsimp only at hcall'
        rw [hothers τ' hτ] at hcall'
        exact .inl ⟨c', value, hcall', hentry'⟩
    · by_cases hτ : τ' = τ
      · subst hτ
        dsimp only at howes
        rw [Function.update_self] at howes
        exact .inl ⟨c, value, hcall, howes⟩
      · dsimp only at howes
        rw [howed τ' hτ] at howes
        exact .inr ⟨value, howes⟩
  refine ⟨hkeeps, ?_, fun τ₁ τ₂ h₁ h₂ => h.alone τ₁ τ₂ (hwriting τ₁ h₁) (hwriting τ₂ h₂), ?_, ?_⟩
  · intro τ' r hr
    by_cases hτ : τ' = τ
    · rw [hτ]
      exact hidle
    · dsimp only at hr
      rw [howed τ' hτ] at hr
      exact (hothers τ' hτ).trans (h.resting τ' r hr)
  · intro τ' value howes
    dsimp only at howes
    by_cases hτ : τ' = τ
    · subst hτ
      rw [Function.update_self] at howes
      rcases hentry with hset | ⟨hno, -⟩
      · exact (Prod.mk.inj (Option.some.inj (howes.symm.trans hset))).2
      · exact absurd howes (hno value)
    · rw [howed τ' hτ] at howes
      rcases hentry with hset | ⟨-, hsame⟩
      · exact absurd (h.alone τ' τ (.inr ⟨value, howes⟩) (.inl ⟨c, _, hcall, hset⟩)) hτ
      · exact (h.owes τ' value howes).trans hsame.symm
  · intro hnobody
    dsimp only at hnobody
    rcases hentry with hset | ⟨-, hsame⟩
    · have howes : Function.update s.owed τ c.entry τ =
          some (id, (numResume s.mem τ).register p) := (Function.update_self ..).trans hset
      exact absurd howes (hnobody τ _)
    · refine (h.flash ?_).trans hsame.symm
      intro τ' value howes
      by_cases hτ : τ' = τ
      · rw [hτ, hnothing] at howes
        cases howes
      · exact hnobody τ' value ((howed τ' hτ).trans howes)

/-- A task writes what it owes to flash. -/
theorem FlashTasks.Ok.write (h : s.Ok id p) {τ : ι} {id' : Int16} {value : Option Int32}
    (howes : s.owed τ = some (id', value)) :
    FlashTasks.Ok id p
      { s with owed := Function.update s.owed τ none, nvs := s.nvs.putNum id' value } := by
  have hbefore {τ' : ι} {r : Int16 × Option Int32}
      (hr : Function.update s.owed τ none τ' = some r) : s.owed τ' = some r := by
    by_cases hτ : τ' = τ
    · subst hτ
      simp at hr
    · rw [Function.update_of_ne hτ] at hr
      exact hr
  have hwriting (τ' : ι) (hnow : FlashTasks.Writing
      { s with owed := Function.update s.owed τ none, nvs := s.nvs.putNum id' value } id τ') :
      s.Writing id τ' := by
    rcases hnow with hcall | ⟨value', hr⟩
    · exact .inl hcall
    · exact .inr ⟨value', hbefore hr⟩
  refine ⟨h.keeps, fun τ' r hr => h.resting τ' r (hbefore hr),
    fun τ₁ τ₂ h₁ h₂ => h.alone τ₁ τ₂ (hwriting τ₁ h₁) (hwriting τ₂ h₂),
    fun τ' value' hr => h.owes τ' value' (hbefore hr), ?_⟩
  intro hnobody
  dsimp only at hnobody ⊢
  by_cases hid : id' = id
  · subst hid
    obtain ⟨e, he, -, -⟩ := h.keeps.held.here
    have hvalue : value = some e.value := by
      rw [h.owes τ value howes, NumTasks.register, he, Option.map_some]
    rw [hvalue, getI32_putNum_self, NumTasks.register, he, Option.map_some]
  · rw [getI32_putNum_of_ne s.nvs hid]
    refine h.flash ?_
    intro τ' value' hr
    by_cases hτ : τ' = τ
    · rw [hτ, howes] at hr
      exact hid (Prod.mk.inj (Option.some.inj hr)).1
    · exact hnobody τ' value' ((Function.update_of_ne hτ ..).trans hr)

theorem FlashTasks.Ok.step (h : s.Ok id p) {a : FlashStep ι} (ha : a.Alone id s) :
    (flashStep s a).Ok id p := by
  cases a with
  | call τ c => exact h.call ha
  | resume τ =>
      rcases resumed_numResume s.mem τ with
        ⟨hanswered, hcall, hothers⟩ | ⟨hcall, hanswered, hidle, hothers⟩
      · have hstep : flashStep s (.resume τ) = { s with mem := numResume s.mem τ } := by
          simp [flashStep, numStep, hanswered]
        rw [hstep]
        exact h.within hanswered hcall hothers
      · rename_i c a
        have hstep : flashStep s (.resume τ) =
            { s with mem := numResume s.mem τ, owed := Function.update s.owed τ c.entry } := by
          simp [flashStep, numStep, hanswered]
        rw [hstep]
        exact h.returned hcall hanswered hidle hothers
  | write τ =>
      simp only [flashStep]
      split
      · exact h
      · rename_i howes
        exact h.write howes

omit [DecidableEq ι] in
theorem ok_startFlash {t : RegisterTables} (hheld : t.Held id p) {nvs : Nvs}
    (hflash : nvs.getI32 .num (makeKey id) = some (t.getNum id)) :
    (FlashTasks.start t nvs : FlashTasks ι).Ok id p where
  keeps := keeps_start hheld
  resting τ r hr := by simp [FlashTasks.start] at hr
  alone τ τ' hwriting := by
    rcases hwriting with ⟨c, value, hcall, -⟩ | ⟨value, howes⟩
    · simp [FlashTasks.start, NumTasks.start, NumPoint.call] at hcall
    · simp [FlashTasks.start] at howes
  owes τ value howes := by simp [FlashTasks.start] at howes
  flash _ := hflash.trans hheld.getNum.symm

/-- A register that is in the array and in flash when the tasks start, and that no two tasks
write at the same time: whenever no task still has to write its entry, the entry has the value
that the array has, whatever else the tasks do meanwhile. -/
theorem registers_survive (ops : List TableOp) (id : Int16)
    (hhas : (Runs.run RegisterTables.step .empty ops).hasNum id = true) {nvs : Nvs}
    (hflash : nvs.getI32 .num (makeKey id) =
      some ((Runs.run RegisterTables.step .empty ops).getNum id))
    {steps : List (FlashStep ι)}
    (halone : Runs.Guarded flashStep (fun s a => a.Alone id s)
      (.start (Runs.run RegisterTables.step .empty ops) nvs) steps) :
    let s := Runs.run flashStep (.start (Runs.run RegisterTables.step .empty ops) nvs) steps
    (∀ τ value, s.owed τ ≠ some (id, value)) →
      s.nvs.getI32 .num (makeKey id) = some (s.mem.tables.getNum id) := by
  intro s hnobody
  obtain ⟨p, hheld⟩ := (RegisterTables.Implements.run ops).agrees.held hhas
  have hok : s.Ok id p := halone.invariant (P := FlashTasks.Ok id p)
    (fun _ _ hs ha => hs.step ha) (ok_startFlash hheld hflash)
  exact (hok.flash hnobody).trans hok.keeps.held.getNum

end

/-- A gauge is written while another task reads it. -/
def gaugeFlashSteps : List (FlashStep Bool) :=
  [.call true (.set 600 7), .call false (.get 600), .resume true, .resume true,
    .resume false, .resume true, .write true]

theorem gaugeFlashSteps_alone (s : FlashTasks Bool)
    (hstart : ∀ τ, ¬s.Writing 600 τ) :
    Runs.Guarded flashStep (fun s a => a.Alone 600 s) s gaugeFlashSteps := by
  refine ⟨⟨by simp, fun _ τ' _ => hstart τ'⟩, ⟨by simp, ?_⟩, trivial, trivial, trivial, trivial,
    trivial, trivial⟩
  rintro ⟨value, hset⟩
  cases hset

/-- The one task that writes has written its entry. -/
theorem owed_gaugeFlashSteps (τ : Bool) :
    (Runs.run flashStep
      (.start (Runs.run RegisterTables.step .empty [.setNumMem 600 100])
        (Nvs.empty.putNum 600 (some 100))) gaugeFlashSteps).owed τ = none := by
  cases τ <;> decide +kernel

theorem registers_survive_gauge :
    let nvs := Nvs.empty.putNum 600 (some 100)
    let s := Runs.run flashStep
      (.start (Runs.run RegisterTables.step .empty [.setNumMem 600 100]) nvs) gaugeFlashSteps
    s.nvs.getI32 .num (makeKey 600) = some (s.mem.tables.getNum 600) ∧
      s.nvs.getI32 .num (makeKey 600) = some 7 := by
  refine ⟨registers_survive [.setNumMem 600 100] 600 (by decide +kernel) (by decide +kernel)
    (gaugeFlashSteps_alone _ ?_) ?_, by decide +kernel⟩
  · rintro τ (⟨c, value, hcall, -⟩ | ⟨value, howes⟩)
    · simp [FlashTasks.start, NumTasks.start, NumPoint.call] at hcall
    · simp [FlashTasks.start] at howes
  · intro τ value howes
    rw [owed_gaugeFlashSteps] at howes
    exact Option.some_ne_none _ howes.symm

/-- Two tasks write one register: the array keeps 2, and flash keeps 1. -/
example :
    let s : FlashTasks Bool := Runs.run flashStep
      (.start (Runs.run RegisterTables.step .empty [.setNumMem 600 100])
        (Nvs.empty.putNum 600 (some 100)))
      [.call true (.set 600 1), .call false (.set 600 2), .resume true, .resume true,
        .resume true, .resume false, .resume false, .resume false, .write false, .write true]
    (s.mem.tables.getNum 600, s.nvs.getI32 .num (makeKey 600)) = (2, some 1) := by
  decide +kernel

end Nivona
