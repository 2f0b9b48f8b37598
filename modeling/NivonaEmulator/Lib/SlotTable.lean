import Mathlib.Data.List.Basic
import Mathlib.Data.List.Nodup
import Mathlib.Data.List.Perm.Subperm
import Mathlib.Order.Nat

/-!
# Slot tables with first-free allocation

A slot table is a fixed number of slots, each empty or holding one key with its
value.  A write scans the slots once: it stops at the key if the key is there,
and otherwise uses the first empty slot it passed.  An erasure empties the slot
of the key, so a table has holes in front of live slots.

The table is a finite map of bounded capacity.  Uniqueness of keys and the
number of slots are fields of the structure.
-/

namespace SlotTable

variable {κ ν : Type*}

/-- The keys held by a list of slots, in slot order. -/
def keys (slots : List (Option (κ × ν))) : List κ :=
  slots.filterMap fun slot => slot.map Prod.fst

@[simp] theorem keys_nil : keys ([] : List (Option (κ × ν))) = [] := rfl

@[simp] theorem keys_none_cons (slots : List (Option (κ × ν))) :
    keys (none :: slots) = keys slots := by
  simp [keys]

@[simp] theorem keys_some_cons (e : κ × ν) (slots : List (Option (κ × ν))) :
    keys (some e :: slots) = e.1 :: keys slots := by
  simp [keys]

@[simp] theorem keys_append (a b : List (Option (κ × ν))) :
    keys (a ++ b) = keys a ++ keys b := by
  simp [keys]

@[simp] theorem keys_replicate_none (n : ℕ) :
    keys (List.replicate n (none : Option (κ × ν))) = [] := by
  induction n with
  | zero => rfl
  | succ n ih => simp [List.replicate_succ, ih]

theorem length_keys_le (slots : List (Option (κ × ν))) :
    (keys slots).length ≤ slots.length :=
  List.length_filterMap_le _ _

/-- An empty slot is left exactly when fewer keys than slots are in use. -/
theorem none_mem_iff_length_keys_lt {slots : List (Option (κ × ν))} :
    none ∈ slots ↔ (keys slots).length < slots.length := by
  induction slots with
  | nil => simp
  | cons slot slots ih =>
      cases slot with
      | none =>
          have := length_keys_le slots
          simp only [List.mem_cons, true_or, keys_none_cons, List.length_cons,
            true_iff]
          omega
      | some e => simp [ih]

/-- Result of the scan for a key. -/
inductive Probe
  | present (slot : ℕ)
  | free (slot : ℕ)
  | full

variable [DecidableEq κ]

/-- Scan the slots once, starting at slot number `i` with the first free slot
seen so far. -/
def probe (k : κ) :
    List (Option (κ × ν)) → (i : ℕ) → (firstFree : Option ℕ) → Probe
  | [], _, none => .full
  | [], _, some f => .free f
  | some (k', _) :: rest, i, firstFree =>
      if k' = k then .present i else probe k rest (i + 1) firstFree
  | none :: rest, i, firstFree =>
      probe k rest (i + 1) (firstFree.or (some i))

/-- What a scan can find, as a decomposition of the slots. -/
theorem probe_cases (k : κ) (slots : List (Option (κ × ν)))
    (i : ℕ) (firstFree : Option ℕ) :
    (∃ a v b, slots = a ++ some (k, v) :: b ∧ k ∉ keys a ∧
      probe k slots i firstFree = .present (i + a.length)) ∨
    (k ∉ keys slots ∧ ∃ f, firstFree = some f ∧
      probe k slots i firstFree = .free f) ∨
    (k ∉ keys slots ∧ firstFree = none ∧ ∃ a b, slots = a ++ none :: b ∧
      probe k slots i firstFree = .free (i + a.length)) ∨
    (k ∉ keys slots ∧ firstFree = none ∧ none ∉ slots ∧
      probe k slots i firstFree = .full) := by
  induction slots generalizing i firstFree with
  | nil => cases firstFree <;> simp [probe]
  | cons slot rest ih =>
      rcases slot with - | ⟨k', v'⟩
      · -- an empty slot becomes the candidate if it is the first one
        rcases ih (i + 1) (firstFree.or (some i)) with
          ⟨a, v, b, rfl, hk, hp⟩ | ⟨hk, f, hf, hp⟩ | ⟨-, hf, -⟩ | ⟨-, hf, -⟩
        · left
          refine ⟨none :: a, v, b, rfl, by simpa using hk, ?_⟩
          rw [probe, hp, List.length_cons]
          congr 1
          omega
        · right
          cases firstFree with
          | some g =>
              left
              refine ⟨by simpa using hk, f, by simpa using hf, ?_⟩
              rw [probe, hp]
          | none =>
              right
              left
              have hfi : f = i := by simpa using hf.symm
              exact ⟨by simpa using hk, rfl, [], rest, rfl, by
                rw [probe, hp, hfi]
                simp⟩
        · cases firstFree <;> simp at hf
        · cases firstFree <;> simp at hf
      · by_cases hkk : k' = k
        · subst hkk
          left
          exact ⟨[], v', rest, rfl, by simp, by simp [probe]⟩
        · rcases ih (i + 1) firstFree with
            ⟨a, v, b, rfl, hk, hp⟩ | ⟨hk, f, hf, hp⟩ |
              ⟨hk, hf, a, b, rfl, hp⟩ | ⟨hk, hf, hn, hp⟩
          · left
            refine ⟨some (k', v') :: a, v, b, rfl, ?_, ?_⟩
            · simp [hk, Ne.symm hkk]
            · rw [probe, if_neg hkk, hp, List.length_cons]
              congr 1
              omega
          · right
            left
            refine ⟨by simp [hk, Ne.symm hkk], f, hf, ?_⟩
            rw [probe, if_neg hkk, hp]
          · right
            right
            left
            refine ⟨?_, hf, some (k', v') :: a, b, rfl, ?_⟩
            · simpa [Ne.symm hkk] using hk
            · rw [probe, if_neg hkk, hp, List.length_cons]
              congr 1
              omega
          · right
            right
            right
            refine ⟨by simp [hk, Ne.symm hkk], hf, by simpa using hn, ?_⟩
            rw [probe, if_neg hkk, hp]

/-- Write a key into the slot the scan selects; a full table is left alone. -/
def write (k : κ) (v : ν) (slots : List (Option (κ × ν))) :
    List (Option (κ × ν)) :=
  match probe k slots 0 none with
  | .present i => slots.set i (some (k, v))
  | .free i => slots.set i (some (k, v))
  | .full => slots

/-- The value of the first slot holding the key. -/
def read (k : κ) : List (Option (κ × ν)) → Option ν
  | [] => none
  | some (k', v) :: rest => if k' = k then some v else read k rest
  | none :: rest => read k rest

/-- Empty the first slot holding the key. -/
def erase (k : κ) : List (Option (κ × ν)) → List (Option (κ × ν))
  | [] => []
  | some (k', v) :: rest =>
      if k' = k then none :: rest else some (k', v) :: erase k rest
  | none :: rest => none :: erase k rest

/-- The key is new and no slot is empty. -/
def Full (k : κ) (slots : List (Option (κ × ν))) : Prop :=
  k ∉ keys slots ∧ none ∉ slots

/-- What a write does to the slots. -/
theorem write_cases (k : κ) (v : ν) (slots : List (Option (κ × ν))) :
    (∃ a w b, slots = a ++ some (k, w) :: b ∧ k ∉ keys a ∧
      write k v slots = a ++ some (k, v) :: b) ∨
    (k ∉ keys slots ∧ ∃ a b, slots = a ++ none :: b ∧
      write k v slots = a ++ some (k, v) :: b) ∨
    (Full k slots ∧ write k v slots = slots) := by
  rcases probe_cases k slots 0 none with
    ⟨a, w, b, rfl, hk, hp⟩ | ⟨-, f, hf, -⟩ | ⟨hk, -, a, b, rfl, hp⟩ |
      ⟨hk, -, hn, hp⟩
  · left
    refine ⟨a, w, b, rfl, hk, ?_⟩
    simp [write, hp]
  · exact absurd hf (by simp)
  · right
    left
    refine ⟨hk, a, b, rfl, ?_⟩
    simp [write, hp]
  · right
    right
    exact ⟨⟨hk, hn⟩, by simp [write, hp]⟩

/-- What an erasure does to the slots. -/
theorem erase_cases (k : κ) (slots : List (Option (κ × ν))) :
    (∃ a v b, slots = a ++ some (k, v) :: b ∧ k ∉ keys a ∧
      erase k slots = a ++ none :: b) ∨
    (k ∉ keys slots ∧ erase k slots = slots) := by
  induction slots with
  | nil => right; simp [erase]
  | cons slot rest ih =>
      rcases slot with - | ⟨k', v'⟩
      · rcases ih with ⟨a, v, b, rfl, hk, he⟩ | ⟨hk, he⟩
        · exact .inl ⟨none :: a, v, b, rfl, by simpa using hk, by simp [erase, he]⟩
        · exact .inr ⟨by simpa using hk, by simp [erase, he]⟩
      · by_cases hkk : k' = k
        · subst hkk
          exact .inl ⟨[], v', rest, rfl, by simp, by simp [erase]⟩
        · rcases ih with ⟨a, v, b, rfl, hk, he⟩ | ⟨hk, he⟩
          · refine .inl ⟨some (k', v') :: a, v, b, rfl, ?_, ?_⟩
            · simp [hk, Ne.symm hkk]
            · simp [erase, hkk, he]
          · refine .inr ⟨by simp [hk, Ne.symm hkk], ?_⟩
            simp [erase, hkk, he]

theorem read_append (k : κ) (a b : List (Option (κ × ν))) :
    read k (a ++ b) = (read k a).or (read k b) := by
  induction a with
  | nil => simp [read]
  | cons slot a ih =>
      rcases slot with - | ⟨k', v⟩
      · simpa [read] using ih
      · by_cases hk : k' = k <;> simp [read, hk, ih]

theorem erase_append {k : κ} {a : List (Option (κ × ν))} (h : k ∉ keys a)
    (b : List (Option (κ × ν))) : erase k (a ++ b) = a ++ erase k b := by
  induction a with
  | nil => rfl
  | cons slot a ih =>
      rcases slot with - | ⟨k', v⟩
      · rw [List.cons_append, erase, ih (by simpa using h), List.cons_append]
      · rw [keys_some_cons, List.mem_cons, not_or] at h
        rw [List.cons_append, erase, if_neg (Ne.symm h.1), ih h.2, List.cons_append]

theorem read_eq_none_iff {k : κ} {slots : List (Option (κ × ν))} :
    read k slots = none ↔ k ∉ keys slots := by
  induction slots with
  | nil => simp [read]
  | cons slot rest ih =>
      rcases slot with - | ⟨k', v⟩
      · simpa [read] using ih
      · by_cases hk : k' = k
        · simp [read, hk]
        · simp [read, hk, ih, Ne.symm hk]

theorem read_isSome_iff {k : κ} {slots : List (Option (κ × ν))} :
    (read k slots).isSome ↔ k ∈ keys slots := by
  rw [Option.isSome_iff_ne_none, Ne, read_eq_none_iff, not_not]

theorem length_write (k : κ) (v : ν) (slots : List (Option (κ × ν))) :
    (write k v slots).length = slots.length := by
  rw [write]
  split <;> simp

theorem length_erase (k : κ) (slots : List (Option (κ × ν))) :
    (erase k slots).length = slots.length := by
  rcases erase_cases k slots with ⟨a, v, b, rfl, -, he⟩ | ⟨-, he⟩
  · simp [he]
  · rw [he]

/-- A write into a table that has room for the key. -/
theorem read_write_self {k : κ} {v : ν} {slots : List (Option (κ × ν))}
    (h : ¬Full k slots) : read k (write k v slots) = some v := by
  rcases write_cases k v slots with
    ⟨a, w, b, rfl, hk, he⟩ | ⟨hk, a, b, rfl, he⟩ | ⟨hfull, -⟩
  · rw [he, read_append, read_eq_none_iff.mpr hk]
    simp [read]
  · rw [keys_append, List.mem_append, not_or] at hk
    rw [he, read_append, read_eq_none_iff.mpr hk.1]
    simp [read]
  · exact absurd hfull h

theorem read_write_of_ne {k k' : κ} {v : ν} {slots : List (Option (κ × ν))}
    (h : k' ≠ k) : read k' (write k v slots) = read k' slots := by
  rcases write_cases k v slots with
    ⟨a, w, b, rfl, -, he⟩ | ⟨-, a, b, rfl, he⟩ | ⟨-, he⟩
  · rw [he, read_append, read_append]
    simp [read, Ne.symm h]
  · rw [he, read_append, read_append]
    simp [read, Ne.symm h]
  · rw [he]

theorem read_erase_of_ne {k k' : κ} {slots : List (Option (κ × ν))}
    (h : k' ≠ k) : read k' (erase k slots) = read k' slots := by
  rcases erase_cases k slots with ⟨a, v, b, rfl, -, he⟩ | ⟨-, he⟩
  · rw [he, read_append, read_append]
    simp [read, Ne.symm h]
  · rw [he]

theorem nodup_keys_write {k : κ} {v : ν} {slots : List (Option (κ × ν))}
    (h : (keys slots).Nodup) : (keys (write k v slots)).Nodup := by
  rcases write_cases k v slots with
    ⟨a, w, b, rfl, -, he⟩ | ⟨hk, a, b, rfl, he⟩ | ⟨-, he⟩
  · rw [he]
    simpa using h
  · rw [he]
    have hperm : (keys (a ++ some (k, v) :: b)).Perm
        (k :: keys (a ++ none :: b)) := by
      simp
    exact hperm.nodup_iff.mpr (List.nodup_cons.mpr ⟨hk, h⟩)
  · rwa [he]

theorem nodup_keys_erase {k : κ} {slots : List (Option (κ × ν))}
    (h : (keys slots).Nodup) : (keys (erase k slots)).Nodup := by
  rcases erase_cases k slots with ⟨a, v, b, rfl, -, he⟩ | ⟨-, he⟩
  · rw [he]
    refine h.sublist ?_
    simp
  · rwa [he]

/-- With unique keys, an erased key is gone. -/
theorem read_erase_self {k : κ} {slots : List (Option (κ × ν))}
    (h : (keys slots).Nodup) : read k (erase k slots) = none := by
  rw [read_eq_none_iff]
  rcases erase_cases k slots with ⟨a, v, b, rfl, hk, he⟩ | ⟨hk, he⟩
  · rw [he]
    simp only [keys_append, keys_some_cons] at h
    have hb : k ∉ keys b := (List.nodup_cons.mp h.of_append_right).1
    simp [hk, hb]
  · rwa [he]

theorem length_keys_write_le (k : κ) (v : ν) (slots : List (Option (κ × ν))) :
    (keys (write k v slots)).length ≤ (keys slots).length + 1 := by
  rcases write_cases k v slots with
    ⟨a, w, b, rfl, -, he⟩ | ⟨-, a, b, rfl, he⟩ | ⟨-, he⟩
  · rw [he]
    simp
  · rw [he]
    simp only [keys_append, keys_some_cons, keys_none_cons,
      List.length_append, List.length_cons]
    omega
  · rw [he]
    omega

end SlotTable

/-! ## Tables -/

/-- A slot table with `cap` slots and unique keys. -/
structure SlotTable (κ ν : Type*) (cap : ℕ) where
  slots : List (Option (κ × ν))
  length_slots : slots.length = cap
  nodup : (SlotTable.keys slots).Nodup

namespace SlotTable

variable {κ ν : Type*} {cap : ℕ}

/-- The table with every slot empty. -/
def empty : SlotTable κ ν cap where
  slots := List.replicate cap none
  length_slots := List.length_replicate
  nodup := by simp

variable [DecidableEq κ]

/-- Look a key up. -/
def get (t : SlotTable κ ν cap) (k : κ) : Option ν :=
  read k t.slots

/-- Write a key, in place or into the first free slot. -/
def put (t : SlotTable κ ν cap) (k : κ) (v : ν) : SlotTable κ ν cap where
  slots := write k v t.slots
  length_slots := (length_write k v t.slots).trans t.length_slots
  nodup := nodup_keys_write t.nodup

/-- Free the slot of a key. -/
def remove (t : SlotTable κ ν cap) (k : κ) : SlotTable κ ν cap where
  slots := erase k t.slots
  length_slots := (length_erase k t.slots).trans t.length_slots
  nodup := nodup_keys_erase t.nodup

/-- A write of `k` would find neither `k` nor a free slot. -/
def FullFor (t : SlotTable κ ν cap) (k : κ) : Prop :=
  Full k t.slots

instance (t : SlotTable κ ν cap) (k : κ) : Decidable (t.FullFor k) :=
  decidable_of_iff (k ∉ keys t.slots ∧ ¬t.slots.any Option.isNone) (by
    simp [FullFor, Full])

@[simp] theorem get_empty (k : κ) : (empty : SlotTable κ ν cap).get k = none :=
  read_eq_none_iff.mpr (by simp [empty])

theorem get_put_self {t : SlotTable κ ν cap} {k : κ} (h : ¬t.FullFor k) (v : ν) :
    (t.put k v).get k = some v :=
  read_write_self h

theorem get_put_of_ne (t : SlotTable κ ν cap) {k k' : κ} (h : k' ≠ k) (v : ν) :
    (t.put k v).get k' = t.get k' :=
  read_write_of_ne h

@[simp] theorem get_remove_self (t : SlotTable κ ν cap) (k : κ) :
    (t.remove k).get k = none :=
  read_erase_self t.nodup

theorem get_remove_of_ne (t : SlotTable κ ν cap) {k k' : κ} (h : k' ≠ k) :
    (t.remove k).get k' = t.get k' :=
  read_erase_of_ne h

theorem not_fullFor_of_get {t : SlotTable κ ν cap} {k : κ} {v : ν}
    (h : t.get k = some v) : ¬t.FullFor k := by
  intro hfull
  rw [get, read_eq_none_iff.mpr hfull.1] at h
  simp at h

omit [DecidableEq κ] in
theorem not_fullFor_of_size_lt {t : SlotTable κ ν cap}
    (h : (keys t.slots).length < cap) (k : κ) : ¬t.FullFor k := by
  intro hfull
  exact hfull.2 (none_mem_iff_length_keys_lt.mpr (h.trans_eq t.length_slots.symm))

omit [DecidableEq κ] in
theorem size_le (t : SlotTable κ ν cap) : (keys t.slots).length ≤ cap :=
  (length_keys_le t.slots).trans_eq t.length_slots

theorem get_isSome_iff {t : SlotTable κ ν cap} {k : κ} :
    (t.get k).isSome ↔ k ∈ keys t.slots :=
  read_isSome_iff

/-- A full table drops a new key. -/
theorem get_put_of_full {t : SlotTable κ ν cap} {k : κ} (h : t.FullFor k) (v : ν) (k' : κ) :
    (t.put k v).get k' = t.get k' := by
  have hslots : write k v t.slots = t.slots := by
    rcases write_cases k v t.slots with
      ⟨a, w, b, he, -, -⟩ | ⟨-, a, b, he, -⟩ | ⟨-, he⟩
    · exact absurd (by simp [he]) h.1
    · exact absurd (by simp [he]) h.2
    · exact he
  change read k' (write k v t.slots) = read k' t.slots
  rw [hslots]

/-- A table is full for the keys it does not hold once all slots are in use. -/
theorem fullFor_iff {t : SlotTable κ ν cap} {k : κ} :
    t.FullFor k ↔ t.get k = none ∧ (keys t.slots).length = cap := by
  have hle := t.size_le
  have hlen := t.length_slots
  rw [FullFor, Full, get, read_eq_none_iff, none_mem_iff_length_keys_lt]
  constructor
  · rintro ⟨hk, hfull⟩
    exact ⟨hk, by omega⟩
  · rintro ⟨hk, hfull⟩
    exact ⟨hk, by omega⟩

/-- A new key takes one more slot. -/
theorem length_keys_put_of_new {t : SlotTable κ ν cap} {k : κ} (hnew : t.get k = none)
    (hroom : ¬t.FullFor k) (v : ν) :
    (keys (t.put k v).slots).length = (keys t.slots).length + 1 := by
  rw [get, read_eq_none_iff] at hnew
  rcases write_cases k v t.slots with
    ⟨a, w, b, he, -, -⟩ | ⟨-, a, b, he, hput⟩ | ⟨hfull, -⟩
  · exact absurd (by simp [he]) hnew
  · change (keys (write k v t.slots)).length = _
    rw [hput, he]
    simp only [keys_append, keys_some_cons, keys_none_cons, List.length_append,
      List.length_cons]
    omega
  · exact absurd hfull hroom

/-- A write gives up no slot. -/
theorem length_keys_le_put (t : SlotTable κ ν cap) (k : κ) (v : ν) :
    (keys t.slots).length ≤ (keys (t.put k v).slots).length := by
  change _ ≤ (keys (write k v t.slots)).length
  rcases write_cases k v t.slots with
    ⟨a, w, b, he, -, hput⟩ | ⟨-, a, b, he, hput⟩ | ⟨-, hput⟩
  · rw [hput, he]
    simp
  · rw [hput, he]
    simp
  · rw [hput]

/-- A table that still has a slot left has stored what was written. -/
theorem get_put_of_length_lt {t : SlotTable κ ν cap} {k : κ} {v : ν}
    (h : (keys (t.put k v).slots).length < cap) : (t.put k v).get k = some v :=
  get_put_self (not_fullFor_of_size_lt (Nat.lt_of_le_of_lt (t.length_keys_le_put k v) h) k) v

/-! ## Loading a list of entries -/

/-- Write a list of entries one after another. -/
def load (t : SlotTable κ ν cap) (es : List (κ × ν)) : SlotTable κ ν cap :=
  es.foldl (fun t e => t.put e.1 e.2) t

theorem get_load_of_not_mem (es : List (κ × ν)) (t : SlotTable κ ν cap) {k : κ}
    (h : k ∉ es.map Prod.fst) : (t.load es).get k = t.get k := by
  induction es generalizing t with
  | nil => rfl
  | cons e es ih =>
      rw [List.map_cons, List.mem_cons, not_or] at h
      calc
        (t.load (e :: es)).get k = ((t.put e.1 e.2).load es).get k := rfl
        _ = (t.put e.1 e.2).get k := ih _ h.2
        _ = t.get k := t.get_put_of_ne h.1 _

/-- Entries with distinct keys that fit are all readable after loading. -/
theorem get_load_of_mem (es : List (κ × ν)) (t : SlotTable κ ν cap)
    (hnodup : (es.map Prod.fst).Nodup)
    (hfit : (keys t.slots).length + es.length ≤ cap)
    {k : κ} {v : ν} (h : (k, v) ∈ es) : (t.load es).get k = some v := by
  induction es generalizing t with
  | nil => exact absurd h List.not_mem_nil
  | cons e es ih =>
      rw [List.map_cons, List.nodup_cons] at hnodup
      rw [List.length_cons] at hfit
      have hsize : (keys (t.put e.1 e.2).slots).length ≤ (keys t.slots).length + 1 :=
        length_keys_write_le e.1 e.2 t.slots
      change ((t.put e.1 e.2).load es).get k = some v
      rcases List.mem_cons.mp h with rfl | hmem
      · rw [get_load_of_not_mem _ _ hnodup.1]
        exact get_put_self (not_fullFor_of_size_lt (by omega) k) v
      · exact ih _ hnodup.2 (by omega) hmem

/-- Loading distinct keys into an empty table that has room for them gives
exactly the map they describe. -/
theorem get_load_empty (es : List (κ × ν)) (hnodup : (es.map Prod.fst).Nodup)
    (hfit : es.length ≤ cap) (k : κ) (v : ν) :
    ((empty : SlotTable κ ν cap).load es).get k = some v ↔ (k, v) ∈ es := by
  have hload : ∀ {w}, (k, w) ∈ es →
      ((empty : SlotTable κ ν cap).load es).get k = some w :=
    fun h => get_load_of_mem es empty hnodup (by simpa [empty] using hfit) h
  constructor
  · intro h
    by_contra hnot
    have hkey : k ∉ es.map Prod.fst := by
      intro hk
      obtain ⟨⟨k', w⟩, hmem, rfl⟩ := List.mem_map.mp hk
      have hw : w = v := Option.some.inj ((hload hmem).symm.trans h)
      exact hnot (hw ▸ hmem)
    rw [get_load_of_not_mem _ _ hkey, get_empty] at h
    simp at h
  · exact hload

/-- New distinct keys that fit take one slot each. -/
theorem length_keys_load (es : List (κ × ν)) (t : SlotTable κ ν cap)
    (hnodup : (es.map Prod.fst).Nodup) (hnew : ∀ k ∈ es.map Prod.fst, t.get k = none)
    (hfit : (keys t.slots).length + es.length ≤ cap) :
    (keys (t.load es).slots).length = (keys t.slots).length + es.length := by
  induction es generalizing t with
  | nil => rfl
  | cons e es ih =>
      rw [List.map_cons, List.nodup_cons] at hnodup
      rw [List.map_cons] at hnew
      rw [List.length_cons] at hfit ⊢
      have hput := length_keys_put_of_new (hnew e.1 List.mem_cons_self)
        (not_fullFor_of_size_lt (by omega) e.1) e.2
      change (keys ((t.put e.1 e.2).load es).slots).length = _
      rw [ih (t.put e.1 e.2) hnodup.2 ?_ (by omega), hput]
      · omega
      · intro k hk
        have hne : k ≠ e.1 := by
          rintro rfl
          exact hnodup.1 hk
        rw [get_put_of_ne _ hne, hnew k (List.mem_cons_of_mem _ hk)]

/-- Distinct keys that all occur in a table are no more than its slots. -/
theorem length_le_of_keys_subset {t : SlotTable κ ν cap} {ks : List κ}
    (hnodup : ks.Nodup) (hsub : ∀ k ∈ ks, (t.get k).isSome) :
    ks.length ≤ cap := by
  have hsubset : ks ⊆ keys t.slots :=
    fun k hk => get_isSome_iff.mp (hsub k hk)
  exact le_trans (List.subperm_of_subset hnodup hsubset).length_le t.size_le

end SlotTable
