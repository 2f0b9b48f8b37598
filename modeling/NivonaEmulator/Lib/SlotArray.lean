import NivonaEmulator.Lib.SlotTable

/-!
# Arrays of entries with a used flag

A slot table in memory is an array of entries, each with a key, a value and a
flag that says whether the entry is in use; what an unused entry holds is
stale.  The loops over such an array compute what the operations of a slot
table do.
-/

namespace SlotArray

open SlotTable (Probe probe keys read write erase)

variable {ε κ ν : Type*} [DecidableEq κ] (used : ε → Bool) (key : ε → κ) (value : ε → ν)

/-- The loop of a write: it stops at the key, and remembers the first unused entry. -/
def scan (k : κ) : List ε → (i : ℕ) → (freeSlot : Option ℕ) → Probe
  | [], _, none => .full
  | [], _, some f => .free f
  | e :: rest, i, freeSlot =>
      if used e = true ∧ key e = k then .present i
      else if used e = false ∧ freeSlot = none then scan k rest (i + 1) (some i)
      else scan k rest (i + 1) freeSlot

/-- The loop of a read or an erasure: it stops at the key. -/
def find (k : κ) : List ε → (i : ℕ) → Option ℕ
  | [], _ => none
  | e :: rest, i => if used e = true ∧ key e = k then some i else find k rest (i + 1)

/-- Change one entry of the array. -/
def update {n : ℕ} (t : Vector ε n) (i : ℕ) (f : ε → ε) : Vector ε n :=
  if h : i < n then t.set i (f t[i]) else t

/-- What an entry holds. -/
def slot (e : ε) : Option (κ × ν) :=
  if used e then some (key e, value e) else none

/-- What the entries of an array hold. -/
def slots {n : ℕ} (t : Vector ε n) : List (Option (κ × ν)) :=
  t.toList.map (slot used key value)

variable {used key value}

omit [DecidableEq κ] in
theorem slot_eq_some_iff {e : ε} {k : κ} {v : ν} :
    slot used key value e = some (k, v) ↔ used e = true ∧ key e = k ∧ value e = v := by
  rw [slot]
  cases used e <;> simp

/-- The loop of a write finds what the scan of the slot table finds. -/
theorem scan_eq_probe (value : ε → ν) (k : κ) (entries : List ε) (i : ℕ) (freeSlot : Option ℕ) :
    scan used key k entries i freeSlot =
      probe k (entries.map (slot used key value)) i freeSlot := by
  induction entries generalizing i freeSlot with
  | nil => cases freeSlot <;> rfl
  | cons e rest ih =>
      rw [List.map_cons, scan, slot]
      cases hused : used e with
      | true =>
          by_cases hkey : key e = k
          · simp [hkey, probe]
          · simp [hkey, probe, ih]
      | false => cases freeSlot <;> simp [probe, ih]

/-- What the loop of a read finds. -/
theorem find_cases (value : ε → ν) (k : κ) (entries : List ε) (i : ℕ) :
    (∃ a e b, entries = a ++ e :: b ∧ slot used key value e = some (k, value e) ∧
      k ∉ keys (a.map (slot used key value)) ∧ find used key k entries i = some (i + a.length)) ∨
    (k ∉ keys (entries.map (slot used key value)) ∧ find used key k entries i = none) := by
  induction entries generalizing i with
  | nil => exact .inr ⟨by simp, rfl⟩
  | cons e rest ih =>
      by_cases hhit : used e = true ∧ key e = k
      · left
        refine ⟨[], e, rest, rfl, slot_eq_some_iff.mpr ⟨hhit.1, hhit.2, rfl⟩, by simp, ?_⟩
        rw [find, if_pos hhit]
        rfl
      · have hhead : k ∉ keys [slot used key value e] := by
          rw [slot]
          cases hused : used e with
          | false => simp
          | true => simpa [hused, eq_comm] using hhit
        rw [find, if_neg hhit]
        have hcons (l : List (Option (κ × ν))) :
            keys (slot used key value e :: l) = keys [slot used key value e] ++ keys l := by
          rw [← SlotTable.keys_append]
          rfl
        rcases ih (i + 1) with ⟨a, e', b, rfl, he', ha, hfind⟩ | ⟨hrest, hfind⟩
        · left
          refine ⟨e :: a, e', b, rfl, he', ?_, ?_⟩
          · rw [List.map_cons, hcons, List.mem_append, not_or]
            exact ⟨hhead, ha⟩
          · rw [hfind, List.length_cons]
            congr 1
            omega
        · right
          refine ⟨?_, hfind⟩
          rw [List.map_cons, hcons, List.mem_append, not_or]
          exact ⟨hhead, hrest⟩

/-- The entry a read stops at holds what the slot table reads. -/
theorem read_slots {n : ℕ} (t : Vector ε n) (k : κ) :
    read k (slots used key value t) =
      (find used key k t.toList 0).bind fun i => t[i]?.map value := by
  rcases find_cases value k t.toList 0 with ⟨a, e, b, ht, he, ha, hfind⟩ | ⟨hnone, hfind⟩
  · have hget : t[a.length]? = some e := by
      rw [← Vector.getElem?_toList, ht]
      simp
    rw [slots, ht, List.map_append, List.map_cons, SlotTable.read_append,
      SlotTable.read_eq_none_iff.mpr ha, he, ← ht, hfind]
    simp [SlotTable.read, hget]
  · rw [slots, SlotTable.read_eq_none_iff.mpr hnone, hfind]
    rfl

theorem isSome_read_slots (value : ε → ν) {n : ℕ} (t : Vector ε n) (k : κ) :
    (read k (slots used key value t)).isSome = (find used key k t.toList 0).isSome := by
  rcases find_cases value k t.toList 0 with ⟨a, e, b, ht, -, -, hfind⟩ | ⟨hnone, hfind⟩
  · have hget : t[a.length]? = some e := by
      rw [← Vector.getElem?_toList, ht]
      simp
    rw [read_slots, hfind]
    simp [hget]
  · rw [read_slots, hfind]
    rfl

omit [DecidableEq κ] in
theorem slots_update {n : ℕ} (t : Vector ε n) (i : ℕ) (f : ε → ε) (s : Option (κ × ν))
    (hf : ∀ e, t[i]? = some e → slot used key value (f e) = s) :
    slots used key value (update t i f) = (slots used key value t).set i s := by
  rw [update]
  split
  · rename_i hi
    rw [slots, slots, Vector.toList_set, List.map_set,
      hf _ (Vector.getElem?_eq_getElem hi)]
  · rename_i hi
    rw [List.set_eq_of_length_le]
    simpa [slots] using hi

/-- A write in place or into the first unused entry is the write of the slot table. -/
theorem slots_write {n : ℕ} (t : Vector ε n) (k : κ) (v : ν) {inPlace fresh : ε → ε}
    (hinPlace : ∀ e, used e = true → key e = k →
      slot used key value (inPlace e) = some (k, v))
    (hfresh : ∀ e, slot used key value (fresh e) = some (k, v)) :
    slots used key value (match scan used key k t.toList 0 none with
      | .present i => update t i inPlace
      | .free i => update t i fresh
      | .full => t) = write k v (slots used key value t) := by
  have hscan : scan used key k t.toList 0 none = probe k (slots used key value t) 0 none :=
    scan_eq_probe value k t.toList 0 none
  rw [write, hscan]
  rcases SlotTable.probe_cases k (slots used key value t) 0 none with
    ⟨a, w, b, hslots, -, hp⟩ | ⟨-, f, hf, -⟩ | ⟨-, -, a, b, -, hp⟩ | ⟨-, -, -, hp⟩
  · rw [hp]
    apply slots_update
    intro e he
    have hslot : slot used key value e = some (k, w) := by
      have hget : (slots used key value t)[a.length]? = some (some (k, w)) := by
        rw [hslots]
        simp
      rw [Nat.zero_add] at he
      rw [slots, List.getElem?_map, Vector.getElem?_toList, he] at hget
      exact Option.some.inj hget
    obtain ⟨hused, hkey, -⟩ := slot_eq_some_iff.mp hslot
    exact hinPlace e hused hkey
  · exact absurd hf (by simp)
  · rw [hp]
    exact slots_update t _ fresh _ fun e _ => hfresh e
  · rw [hp]

/-- Clearing the entry a read stops at is the erasure of the slot table. -/
theorem slots_erase {n : ℕ} (t : Vector ε n) (k : κ) {clear : ε → ε}
    (hclear : ∀ e, used (clear e) = false) :
    slots used key value (match find used key k t.toList 0 with
      | some i => update t i clear
      | none => t) = erase k (slots used key value t) := by
  rcases find_cases value k t.toList 0 with ⟨a, e, b, ht, he, ha, hfind⟩ | ⟨hnone, hfind⟩
  · have hset : slots used key value (update t a.length clear) =
        (slots used key value t).set a.length none := by
      apply slots_update
      intro e' _
      rw [slot, hclear]
      rfl
    rw [hfind]
    dsimp only
    rw [Nat.zero_add, hset, slots, ht, List.map_append, List.map_cons, he,
      SlotTable.erase_append ha, erase, if_pos rfl]
    simp
  · rw [hfind]
    rcases SlotTable.erase_cases k (slots used key value t) with ⟨a, v, b, hslots, -⟩ | ⟨-, he⟩
    · rw [slots] at hslots
      exact absurd (by simp [hslots]) hnone
    · exact he.symm

omit [DecidableEq κ] in
variable (value) in
/-- The keys are those of the entries in use. -/
theorem mem_keys_slots {n : ℕ} {t : Vector ε n} {k : κ} :
    k ∈ keys (slots used key value t) ↔ ∃ e ∈ t.toList, used e = true ∧ key e = k := by
  rw [keys, slots, List.filterMap_map, List.mem_filterMap]
  constructor
  · rintro ⟨e, he, hk⟩
    refine ⟨e, he, ?_⟩
    cases hused : used e <;> simp_all [slot]
  · rintro ⟨e, he, hused, rfl⟩
    exact ⟨e, he, by simp [slot, hused]⟩

omit [DecidableEq κ] in
theorem length_keys_slots {n : ℕ} (t : Vector ε n) :
    (keys (slots used key value t)).length = t.toList.countP used := by
  rw [slots]
  induction t.toList with
  | nil => rfl
  | cons e rest ih =>
      rw [List.map_cons, List.countP_cons, ← ih, slot]
      cases used e <;> simp

omit [DecidableEq κ] in
/-- Distinct keys: no two entries in use hold the same one. -/
theorem eq_of_nodup {n : ℕ} {t : Vector ε n} (h : (keys (slots used key value t)).Nodup)
    {i j : ℕ} (hi : i < n) (hj : j < n) (husedi : used t[i] = true) (husedj : used t[j] = true)
    (hkey : key t[i] = key t[j]) : i = j := by
  have hpair := h
  rw [keys, slots, List.filterMap_map, List.Nodup, List.pairwise_filterMap,
    List.pairwise_iff_getElem] at hpair
  have hne (i j : ℕ) (hi : i < n) (hj : j < n) (husedi : used t[i] = true)
      (husedj : used t[j] = true) (hij : i < j) : key t[i] ≠ key t[j] := by
    have hi' : i < t.toList.length := by simpa using hi
    have hj' : j < t.toList.length := by simpa using hj
    exact hpair i j hi' hj' hij (key t[i]) (by simp [slot, husedi]) (key t[j])
      (by simp [slot, husedj])
  rcases Nat.lt_trichotomy i j with hlt | heq | hgt
  · exact absurd hkey (hne i j hi hj husedi husedj hlt)
  · exact heq
  · exact absurd hkey.symm (hne j i hj hi husedj husedi hgt)

end SlotArray
