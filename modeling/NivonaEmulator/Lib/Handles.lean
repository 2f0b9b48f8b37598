import Mathlib.Logic.Function.Basic
import Mathlib.Data.List.Basic

/-!
# Handles that are given out again

A platform gives out handles (descriptors, connection numbers) and may give one
out again once what was behind it is closed.  A table says what is behind each
handle now and what has been closed.  Whoever notes a handle down finds behind it
what was there then exactly as long as that has not been closed.
-/

namespace Handles

variable {η κ : Type*}

/-- What is behind each handle, and what has been closed. -/
structure Table (η κ : Type*) where
  owner : η → Option κ
  ended : List κ

/-- No handle is in use. -/
def Table.empty : Table η κ :=
  { owner := fun _ => none, ended := [] }

/-- Nothing is behind two handles, and nothing closed is behind one. -/
structure Table.Ok (t : Table η κ) : Prop where
  unique : ∀ h h' k, t.owner h = some k → t.owner h' = some k → h = h'
  open_not_ended : ∀ h k, t.owner h = some k → k ∉ t.ended

/-- It was never behind a handle. -/
def Table.New (t : Table η κ) (k : κ) : Prop :=
  (∀ h, t.owner h ≠ some k) ∧ k ∉ t.ended

/-- What was behind the handle when it was noted down: it is still there, or it has
been closed. -/
def Table.Noted (t : Table η κ) (h : η) (k : κ) : Prop :=
  t.owner h = some k ∨ k ∈ t.ended

variable [DecidableEq η]

/-- Give the handle out. -/
def Table.open (t : Table η κ) (h : η) (k : κ) : Table η κ :=
  { t with owner := Function.update t.owner h (some k) }

/-- Close what is behind the handle. -/
def Table.close (t : Table η κ) (h : η) : Table η κ :=
  { owner := Function.update t.owner h none, ended := t.ended ++ (t.owner h).toList }

section

variable {t : Table η κ} {h h' : η} {k k' : κ}

@[simp] theorem owner_open_self : (t.open h k).owner h = some k :=
  Function.update_self _ _ _

theorem owner_open_of_ne (hne : h' ≠ h) : (t.open h k).owner h' = t.owner h' :=
  Function.update_of_ne hne _ _

@[simp] theorem owner_close_self : (t.close h).owner h = none :=
  Function.update_self _ _ _

theorem owner_close_of_ne (hne : h' ≠ h) : (t.close h).owner h' = t.owner h' :=
  Function.update_of_ne hne _ _

theorem mem_ended_close : k ∈ (t.close h).ended ↔ k ∈ t.ended ∨ t.owner h = some k := by
  simp [Table.close]

/-- A handle in use is not the free one that is given out. -/
theorem owner_open_of_free (hfree : t.owner h = none) (hh' : t.owner h' = some k') :
    (t.open h k).owner h' = some k' := by
  have hne : h' ≠ h := by
    rintro rfl
    simp [hfree] at hh'
  rw [owner_open_of_ne hne, hh']

/-- Closing one leaves the others behind their handles. -/
theorem owner_close_of_owner_ne (hh : t.owner h = some k) (hh' : t.owner h' = some k')
    (hne : k' ≠ k) : (t.close h).owner h' = some k' := by
  have hne' : h' ≠ h := by
    rintro rfl
    exact hne (Option.some.inj (hh'.symm.trans hh))
  rw [owner_close_of_ne hne', hh']

theorem owner_of_open (hk : (t.open h k).owner h' = some k') :
    h' = h ∧ k' = k ∨ h' ≠ h ∧ t.owner h' = some k' := by
  by_cases hne : h' = h
  · subst hne
    rw [owner_open_self] at hk
    exact .inl ⟨rfl, (Option.some.inj hk).symm⟩
  · rw [owner_open_of_ne hne] at hk
    exact .inr ⟨hne, hk⟩

theorem owner_of_close (hk : (t.close h).owner h' = some k') :
    h' ≠ h ∧ t.owner h' = some k' := by
  by_cases hne : h' = h
  · subst hne
    simp at hk
  · rw [owner_close_of_ne hne] at hk
    exact ⟨hne, hk⟩

/-- Giving out a free handle makes nothing else known. -/
theorem new_open (hfree : t.owner h = none) (hne : k' ≠ k) :
    (t.open h k).New k' ↔ t.New k' := by
  refine and_congr_left fun _ => ⟨fun hnew h' hh' => ?_, fun hnew h' hh' => ?_⟩
  · exact hnew h' (owner_open_of_free hfree hh')
  · rcases owner_of_open hh' with ⟨-, hk⟩ | ⟨-, hh⟩
    · exact hne hk
    · exact hnew h' hh

/-- What is closed stays known. -/
theorem new_close : (t.close h).New k' ↔ t.New k' := by
  constructor
  · rintro ⟨howner, hended⟩
    refine ⟨fun h' hh' => ?_, fun hk => hended (mem_ended_close.mpr (.inl hk))⟩
    by_cases hne : h' = h
    · subst hne
      exact hended (mem_ended_close.mpr (.inr hh'))
    · exact howner h' ((owner_close_of_ne hne).trans hh')
  · rintro ⟨howner, hended⟩
    refine ⟨fun h' hh' => howner h' (owner_of_close hh').2, fun hk => ?_⟩
    rcases mem_ended_close.mp hk with hbefore | hnow
    · exact hended hbefore
    · exact howner h hnow

omit [DecidableEq η] in
theorem ok_empty : (Table.empty : Table η κ).Ok := by
  constructor
  · intro h h' k hk
    simp [Table.empty] at hk
  · intro h k hk
    simp [Table.empty] at hk

theorem Table.Ok.open (hok : t.Ok) (hnew : t.New k) : (t.open h k).Ok := by
  constructor
  · intro h₁ h₂ k' h₁k h₂k
    rcases owner_of_open h₁k with ⟨rfl, rfl⟩ | ⟨-, h₁k'⟩
    · rcases owner_of_open h₂k with ⟨rfl, -⟩ | ⟨-, h₂k'⟩
      · rfl
      · exact absurd h₂k' (hnew.1 h₂)
    · rcases owner_of_open h₂k with ⟨rfl, rfl⟩ | ⟨-, h₂k'⟩
      · exact absurd h₁k' (hnew.1 h₁)
      · exact hok.unique h₁ h₂ k' h₁k' h₂k'
  · intro h' k' hk
    rcases owner_of_open hk with ⟨rfl, rfl⟩ | ⟨-, hk'⟩
    · exact hnew.2
    · exact hok.open_not_ended h' k' hk'

theorem Table.Ok.close (hok : t.Ok) : (t.close h).Ok := by
  constructor
  · intro h₁ h₂ k' h₁k h₂k
    exact hok.unique h₁ h₂ k' (owner_of_close h₁k).2 (owner_of_close h₂k).2
  · intro h' k' hk hended
    obtain ⟨hne, hk'⟩ := owner_of_close hk
    rcases mem_ended_close.mp hended with hbefore | hnow
    · exact hok.open_not_ended h' k' hk' hbefore
    · exact hne (hok.unique h' h k' hk' hnow)

theorem Table.Noted.open (hnoted : t.Noted h' k') (hfree : t.owner h = none) :
    (t.open h k).Noted h' k' := by
  rcases hnoted with hthere | hended
  · exact .inl (owner_open_of_free hfree hthere)
  · exact .inr hended

theorem Table.Noted.close (hnoted : t.Noted h' k') : (t.close h).Noted h' k' := by
  rcases hnoted with hthere | hended
  · by_cases hne : h' = h
    · subst hne
      exact .inr (mem_ended_close.mpr (.inr hthere))
    · exact .inl ((owner_close_of_ne hne).trans hthere)
  · exact .inr (mem_ended_close.mpr (.inl hended))

omit [DecidableEq η] in
/-- A handle still leads to what it was noted down for exactly as long as that has
not been closed. -/
theorem Table.Noted.owner_iff (hnoted : t.Noted h k) (hok : t.Ok) :
    t.owner h = some k ↔ k ∉ t.ended := by
  constructor
  · exact hok.open_not_ended h k
  · intro hopen
    rcases hnoted with hthere | hended
    · exact hthere
    · exact absurd hended hopen

end

end Handles
