import NivonaEmulator.Families
import NivonaEmulator.Lib.Runs
import NivonaEmulator.Lib.SharedText
import Mathlib.Logic.Function.Basic

/-!
# Device information read while it is set

The console sets the texts of the device information service on its own task, and
the host task reads them for a peer, without a lock and byte by byte.  A reading can
be torn, but it stays inside the arrays, has the length of a serial, and takes every
byte from the serial of a family that the device has had.
-/

namespace Nivona

def DIS_FIELD_MAX : ℕ := 32

/-- The characteristics of the service, each with its array. -/
inductive DisField
  | manufacturer | model | serial | hwRev | fwRev | swRev
  deriving DecidableEq, Repr

def bytesOf (s : String) : List UInt8 := s.toUTF8.data.toList

def Family.serial (f : Family) : List UInt8 := bytesOf f.bleName

/-- The initial values of the arrays. -/
def DisField.initial : DisField → List UInt8
  | .manufacturer => bytesOf "EF"
  | .model => bytesOf "EF-BTLE"
  | .serial => bytesOf "8107000001-----"
  | .hwRev => bytesOf "1"
  | .fwRev => bytesOf "386"
  | .swRev => bytesOf "EF_1.00R4__386"

/-! ## Setting and reading -/

/-- Where a task stands. -/
inductive DisPoint
  | idle
  /-- `copy_field` before its store to `dst[j]`, with the fields still to copy -/
  | copy (f : DisField) (text : List UInt8) (j : ℕ) (more : List (DisField × List UInt8))
  /-- `strlen` before its load of `s[j]` -/
  | strlen (f : DisField) (j : ℕ)
  /-- `os_mbuf_append` with the bytes appended so far -/
  | append (f : DisField) (len : ℕ) (bytes : List UInt8)
  deriving DecidableEq, Repr

/-- The arrays, the tasks, and the values that were read. -/
structure Dis (ι : Type*) where
  fields : DisField → Vector UInt8 DIS_FIELD_MAX
  point : ι → DisPoint
  sent : List (DisField × List UInt8)

inductive DisStep (ι : Type*)
  /-- `family <key>` -/
  | cmdFamily (τ : ι) (key : String)
  | accessString (τ : ι) (f : DisField)
  | resume (τ : ι)

/-- Copy the fields one after another. -/
def copyFields : List (DisField × List UInt8) → DisPoint
  | [] => .idle
  | (f, text) :: more => .copy f (text.take (DIS_FIELD_MAX - 1)) 0 more

/-- `nivona_dis_set`; an argument that is `NULL` leaves its field alone. -/
def nivonaDisSet (texts : DisField → Option (List UInt8)) : DisPoint :=
  copyFields ([.manufacturer, .model, .serial, .hwRev, .fwRev, .swRev].filterMap fun f =>
    (texts f).map fun text => (f, text))

/-- The arguments of `cmd_family`. -/
def familyTexts (fam : FamilyId) : DisField → Option (List UInt8)
  | .serial => some (familyRow fam).serial
  | f => some f.initial

section

variable {ι : Type*} [DecidableEq ι]

def Dis.go (s : Dis ι) (τ : ι) (p : DisPoint) : Dis ι :=
  { s with point := Function.update s.point τ p }

/-- The next access of a task; one outside an array has no result. -/
def disResume (s : Dis ι) (τ : ι) : Option (Dis ι) :=
  match s.point τ with
  | .idle => some s
  | .copy f text j more =>
      match text[j]? with
      | some c => (CheckedBuffer.store (s.fields f) j c).map fun dst =>
          { s with fields := Function.update s.fields f dst }.go τ (.copy f text (j + 1) more)
      | none => (CheckedBuffer.store (s.fields f) text.length 0).map fun dst =>
          { s with fields := Function.update s.fields f dst }.go τ (copyFields more)
  | .strlen f j =>
      (CheckedBuffer.load (s.fields f) j).map fun c =>
        s.go τ (if c = 0 then .append f j [] else .strlen f (j + 1))
  | .append f len bytes =>
      if bytes.length < len then
        (CheckedBuffer.load (s.fields f) bytes.length).map fun c =>
          s.go τ (.append f len (bytes ++ [c]))
      else some ({ s with sent := s.sent ++ [(f, bytes)] }.go τ .idle)

/-- A task starts when it is idle; an unknown key sets nothing. -/
def disStep (s : Dis ι) : DisStep ι → Option (Dis ι)
  | .cmdFamily τ key =>
      match nivonaFamilyFind key with
      | none => some s
      | some fam =>
          match s.point τ with
          | .idle => some (s.go τ (nivonaDisSet (familyTexts fam)))
          | _ => some s
  | .accessString τ f =>
      match s.point τ with
      | .idle => some (s.go τ (.strlen f 0))
      | _ => some s
  | .resume τ => disResume s τ

end

/-- An array that was set to a text before the tasks started. -/
def fieldArray (text : List UInt8) : Vector UInt8 DIS_FIELD_MAX :=
  Vector.ofFn fun i => text.getD i 0

/-- The texts once `app_main` has set the serial of the family of the start. -/
def DisField.text (fam : FamilyId) : DisField → List UInt8
  | .serial => (familyRow fam).serial
  | f => f.initial

/-- The service when the BLE host starts. -/
def Dis.boot {ι : Type*} (fam : FamilyId) : Dis ι :=
  { fields := fun f => fieldArray (f.text fam), point := fun _ => .idle, sent := [] }

/-! ## What is read -/

/-- The length of the texts of a field. -/
def DisField.len (f : DisField) : ℕ := f.initial.length

/-- What the families give for a field. -/
def DisField.texts (fams : List FamilyId) (f : DisField) : Set (List UInt8) :=
  {text | ∃ fam ∈ fams, text = f.text fam}

theorem serial_plain : ∀ fam : FamilyId,
    (familyRow fam).serial.length = 15 ∧ (0 : UInt8) ∉ (familyRow fam).serial := by
  decide +kernel

theorem initial_plain (f : DisField) : f.len < 31 ∧ (0 : UInt8) ∉ f.initial := by
  cases f <;> decide +kernel

/-- Only the serial depends on the family. -/
theorem text_of_ne_serial (fam : FamilyId) {f : DisField} (hf : f ≠ .serial) :
    f.text fam = f.initial := by
  cases f with
  | serial => exact absurd rfl hf
  | _ => rfl

theorem text_plain (fam : FamilyId) (f : DisField) :
    (f.text fam).length = f.len ∧ (0 : UInt8) ∉ f.text fam := by
  by_cases hf : f = .serial
  · subst hf
    have hlen : DisField.serial.len = 15 := by decide +kernel
    rw [hlen]
    exact serial_plain fam
  · rw [text_of_ne_serial fam hf]
    exact ⟨rfl, (initial_plain f).2⟩

theorem plain_texts (fams : List FamilyId) (f : DisField) :
    SharedText.Plain 0 f.len (f.texts fams) := by
  rintro text ⟨fam, -, rfl⟩
  exact text_plain fam f

/-- A text that may be copied to the field. -/
def Copies (fams : List FamilyId) (r : DisField × List UInt8) : Prop :=
  r.2 ∈ r.1.texts fams

/-- What a task is doing fits the families named so far. -/
def DisPoint.Ok (fams : List FamilyId) : DisPoint → Prop
  | .idle => True
  | .copy f text j more => Copies fams (f, text) ∧ j ≤ f.len ∧ ∀ r ∈ more, Copies fams r
  | .strlen f j => j ≤ f.len
  | .append f len bytes =>
      len = f.len ∧ bytes.length ≤ len ∧ SharedText.Mixture (f.texts fams) bytes

structure Dis.Ok {ι : Type*} (fams : List FamilyId) (s : Dis ι) : Prop where
  fields : ∀ f, SharedText.Shows 0 f.len (f.texts fams) (s.fields f)
  point : ∀ τ, (s.point τ).Ok fams
  sent : ∀ r ∈ s.sent, r.2.length = r.1.len ∧ SharedText.Mixture (r.1.texts fams) r.2

/-- The families that the console has named. -/
def namedFamilies {ι : Type*} (steps : List (DisStep ι)) : List FamilyId :=
  steps.filterMap fun
    | .cmdFamily _ key => nivonaFamilyFind key
    | _ => none

theorem texts_mono {fams fams' : List FamilyId} (hle : fams ⊆ fams') (f : DisField) :
    f.texts fams ⊆ f.texts fams' := by
  rintro text ⟨fam, hfam, rfl⟩
  exact ⟨fam, hle hfam, rfl⟩

theorem DisPoint.Ok.mono {fams fams' : List FamilyId} (hle : fams ⊆ fams') {p : DisPoint}
    (h : p.Ok fams) : p.Ok fams' := by
  cases p with
  | idle => trivial
  | copy f text j more =>
      obtain ⟨htext, hj, hmore⟩ := h
      exact ⟨texts_mono hle f htext, hj, fun r hr => texts_mono hle r.1 (hmore r hr)⟩
  | strlen f j => exact h
  | append f len bytes =>
      obtain ⟨hlen, hbytes, hmixture⟩ := h
      exact ⟨hlen, hbytes, hmixture.mono (texts_mono hle f)⟩

theorem Dis.Ok.mono {ι : Type*} {s : Dis ι} {fams fams' : List FamilyId} (hle : fams ⊆ fams')
    (h : s.Ok fams) : s.Ok fams' where
  fields f := (h.fields f).mono (texts_mono hle f)
  point τ := (h.point τ).mono hle
  sent r hr := ⟨(h.sent r hr).1, (h.sent r hr).2.mono (texts_mono hle r.1)⟩

/-- The next field to copy, if there is one. -/
theorem ok_copyFields {fams : List FamilyId} {more : List (DisField × List UInt8)}
    (h : ∀ r ∈ more, Copies fams r) : (copyFields more).Ok fams := by
  rcases more with _ | ⟨⟨f, text⟩, more⟩
  · trivial
  · obtain ⟨fam, hfam, htext⟩ := h (f, text) List.mem_cons_self
    have hshort : text.take (DIS_FIELD_MAX - 1) = text := by
      apply List.take_of_length_le
      have hlength : text.length = f.len := (plain_texts fams f text ⟨fam, hfam, htext⟩).1
      have hlt := (initial_plain f).1
      simp only [DIS_FIELD_MAX]
      omega
    refine ⟨?_, Nat.zero_le _, fun r hr => h r (List.mem_cons_of_mem _ hr)⟩
    rw [hshort]
    exact ⟨fam, hfam, htext⟩

/-- A call for a family copies what the family gives. -/
theorem ok_nivonaDisSet {fams : List FamilyId} {fam : FamilyId} (hfam : fam ∈ fams) :
    (nivonaDisSet (familyTexts fam)).Ok fams := by
  apply ok_copyFields
  intro r hr
  obtain ⟨f, -, hf⟩ := List.mem_filterMap.mp hr
  obtain ⟨text, htext, rfl⟩ := Option.map_eq_some_iff.mp hf
  refine ⟨fam, hfam, ?_⟩
  by_cases hserial : f = .serial
  · subst hserial
    exact (Option.some.inj htext).symm
  · rw [text_of_ne_serial fam hserial]
    cases f with
    | serial => exact absurd rfl hserial
    | _ => exact (Option.some.inj htext).symm

section

variable {ι : Type*} [DecidableEq ι] {s : Dis ι} {fams : List FamilyId}

theorem Dis.Ok.go (h : s.Ok fams) (τ : ι) {p : DisPoint} (hp : p.Ok fams) :
    (s.go τ p).Ok fams where
  fields := h.fields
  point τ' := by
    by_cases hτ : τ' = τ
    · rw [hτ, Dis.go]
      simpa using hp
    · have hsame : (s.go τ p).point τ' = s.point τ' := Function.update_of_ne hτ ..
      rw [hsame]
      exact h.point τ'
  sent := h.sent

omit [DecidableEq ι] in
/-- One array changes and still shows what it has to. -/
theorem Dis.Ok.onField (h : s.Ok fams) {f : DisField} {dst : Vector UInt8 DIS_FIELD_MAX}
    (hdst : SharedText.Shows 0 f.len (f.texts fams) dst) :
    Dis.Ok fams { s with fields := Function.update s.fields f dst } where
  fields f' := by
    by_cases hf : f' = f
    · subst hf
      simpa using hdst
    · simpa [hf] using h.fields f'
  point := h.point
  sent := h.sent

/-- One access: it is inside its array. -/
theorem ok_disResume (h : s.Ok fams) (τ : ι) :
    ∃ s', disResume s τ = some s' ∧ s'.Ok fams := by
  have hok := h.point τ
  cases hpoint : s.point τ with
  | idle => exact ⟨s, by simp only [disResume, hpoint], h⟩
  | copy f text j more =>
      rw [hpoint] at hok
      obtain ⟨htext, hj, hmore⟩ := hok
      have hlength : text.length = f.len := (plain_texts fams f text htext).1
      rcases hc : text[j]? with _ | c
      · obtain ⟨dst, hstore, hshows⟩ := (h.fields f).storeStop
        rw [← hlength] at hstore
        refine ⟨_, ?_, (h.onField hshows).go τ (ok_copyFields hmore)⟩
        simp only [disResume, hpoint, hc, hstore, Option.map_some]
      · have hlt : j < f.len := by
          rw [← hlength]
          exact (List.getElem?_eq_some_iff.mp hc).1
        obtain ⟨dst, hstore, hshows⟩ := (h.fields f).storeSymbol htext hc hlt
        refine ⟨_, ?_, (h.onField hshows).go τ (p := .copy f text (j + 1) more)
          ⟨htext, hlt, hmore⟩⟩
        simp only [disResume, hpoint, hc, hstore, Option.map_some]
  | strlen f j =>
      rw [hpoint] at hok
      rcases Nat.lt_or_eq_of_le hok with hlt | rfl
      · obtain ⟨c, hload, hc, -⟩ := (h.fields f).load_symbol (plain_texts fams f) hlt
        refine ⟨_, ?_, h.go τ (p := .strlen f (j + 1)) hlt⟩
        simp only [disResume, hpoint, hload, Option.map_some, if_neg hc]
      · refine ⟨_, ?_, h.go τ (p := .append f f.len []) ?_⟩
        · simp only [disResume, hpoint, (h.fields f).stop, Option.map_some, if_true]
        · exact ⟨rfl, Nat.zero_le _, SharedText.mixture_nil⟩
  | append f len bytes =>
      rw [hpoint] at hok
      obtain ⟨rfl, hle, hmixture⟩ := hok
      by_cases hlt : bytes.length < f.len
      · obtain ⟨c, hload, -, hfrom⟩ := (h.fields f).load_symbol (plain_texts fams f) hlt
        refine ⟨_, ?_, h.go τ (p := .append f f.len (bytes ++ [c])) ?_⟩
        · simp only [disResume, hpoint, if_pos hlt, hload, Option.map_some]
        · refine ⟨rfl, ?_, hmixture.snoc hfrom⟩
          rw [List.length_append]
          exact hlt
      · have hdone : Dis.Ok fams { s with sent := s.sent ++ [(f, bytes)] } := by
          refine ⟨h.fields, h.point, ?_⟩
          intro r hr
          rcases List.mem_append.mp hr with hbefore | hnow
          · exact h.sent r hbefore
          · obtain rfl := List.mem_singleton.mp hnow
            exact ⟨Nat.le_antisymm hle (Nat.not_lt.mp hlt), hmixture⟩
        refine ⟨_, ?_, hdone.go τ (p := .idle) trivial⟩
        simp only [disResume, hpoint, if_neg hlt]

theorem ok_disStep (h : s.Ok fams) (a : DisStep ι) :
    ∃ s', disStep s a = some s' ∧ s'.Ok (fams ++ namedFamilies [a]) := by
  have hmore (a : DisStep ι) : s.Ok (fams ++ namedFamilies [a]) :=
    h.mono (List.subset_append_left ..)
  cases a with
  | cmdFamily τ key =>
      have hok := hmore (.cmdFamily τ key)
      simp only [disStep]
      rcases hkey : nivonaFamilyFind key with _ | fam
      · exact ⟨s, rfl, hok⟩
      · dsimp only
        split
        · refine ⟨_, rfl, hok.go τ (ok_nivonaDisSet ?_)⟩
          simp [namedFamilies, hkey]
        · exact ⟨s, rfl, hok⟩
  | accessString τ f =>
      have hok := hmore (.accessString τ f)
      simp only [disStep]
      split
      · exact ⟨_, rfl, hok.go τ (p := .strlen f 0) (Nat.zero_le _)⟩
      · exact ⟨s, rfl, hok⟩
  | resume τ => exact ok_disResume (hmore (.resume τ)) τ

theorem ok_disRun (h : s.Ok fams) (steps : List (DisStep ι)) :
    ∃ s', steps.foldlM disStep s = some s' ∧ s'.Ok (fams ++ namedFamilies steps) := by
  induction steps generalizing s fams with
  | nil => exact ⟨s, rfl, by simpa [namedFamilies] using h⟩
  | cons a rest ih =>
      obtain ⟨s₁, hstep, hok₁⟩ := ok_disStep h a
      obtain ⟨s', hrun, hok⟩ := ih hok₁
      have hnamed : namedFamilies (a :: rest) = namedFamilies [a] ++ namedFamilies rest :=
        List.filterMap_append (l := [a])
      refine ⟨s', ?_, ?_⟩
      · rw [List.foldlM_cons, hstep]
        exact hrun
      · rw [hnamed, ← List.append_assoc]
        exact hok

omit [DecidableEq ι] in
theorem ok_boot (fam : FamilyId) : (Dis.boot fam : Dis ι).Ok [fam] := by
  refine ⟨?_, fun _ => trivial, fun r hr => absurd hr List.not_mem_nil⟩
  intro f
  have hlength := (text_plain fam f).1
  have hfits : (f.text fam).length < DIS_FIELD_MAX := by
    have hlt := (initial_plain f).1
    simp only [DIS_FIELD_MAX]
    omega
  have hshows : SharedText.Shows 0 (f.text fam).length {f.text fam} (fieldArray (f.text fam)) :=
    SharedText.shows_padded hfits
  rw [hlength] at hshows
  refine hshows.mono ?_
  rintro text rfl
  exact ⟨fam, List.mem_singleton_self fam, rfl⟩

/-- However the calls of any number of tasks are interleaved, no access is outside an array,
every field but the serial is read as it always was, and a serial that is read has its full
length, each byte from the family of the start or from one named since. -/
theorem dis_reads (fam : FamilyId) (steps : List (DisStep ι)) :
    ∃ s, steps.foldlM disStep (.boot fam) = some s ∧ ∀ r ∈ s.sent,
      (r.1 ≠ .serial → r.2 = r.1.initial) ∧
      (r.1 = .serial → r.2.length = 15 ∧ ∀ (j : ℕ) (c : UInt8), r.2[j]? = some c →
        ∃ g ∈ fam :: namedFamilies steps, (familyRow g).serial[j]? = some c) := by
  obtain ⟨s, hrun, hok⟩ := ok_disRun (ok_boot fam) steps
  refine ⟨s, hrun, ?_⟩
  rintro ⟨f, bytes⟩ hr
  obtain ⟨hlength, hmixture⟩ := hok.sent (f, bytes) hr
  constructor
  · intro hserial
    have hone : SharedText.Mixture {f.initial} bytes := by
      refine hmixture.mono ?_
      rintro text ⟨g, -, rfl⟩
      exact text_of_ne_serial g hserial
    exact hone.eq_of_singleton hlength
  · rintro rfl
    refine ⟨hlength, ?_⟩
    intro j c hc
    obtain ⟨text, ⟨g, hg, rfl⟩, htext⟩ := hmixture j c hc
    exact ⟨g, hg, htext⟩

/-- A serial that no family has: the console has copied one byte when the peer reads. -/
example :
    (List.foldlM disStep (.boot 7)
        ((.cmdFamily true "600" :: List.replicate 12 (.resume true)) ++
          .accessString false .serial :: List.replicate 32 (.resume false))).map Dis.sent =
      some [(.serial, bytesOf "6107000001-----")] := by
  decide +kernel

end

end Nivona
