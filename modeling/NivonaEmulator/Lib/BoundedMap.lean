import Mathlib.Data.Finmap
import NivonaEmulator.Lib.SlotTable

/-!
# Finite maps of bounded capacity

What a fixed number of slots is for: a finite map that takes a new key only
while it holds fewer keys than its capacity.  Slot tables implement it.
-/

/-- A finite map with at most `cap` keys. -/
structure BoundedMap (κ ν : Type*) (cap : ℕ) where
  map : Finmap fun _ : κ => ν
  card_le : map.keys.card ≤ cap

namespace BoundedMap

variable {κ ν : Type*} {cap : ℕ}

/-- The map without keys. -/
def empty : BoundedMap κ ν cap where
  map := ∅
  card_le := by simp

variable [DecidableEq κ]

def lookup (m : BoundedMap κ ν cap) (k : κ) : Option ν := m.map.lookup k

/-- A write to the key takes effect: it is there, or there is room for it. -/
def Accepts (m : BoundedMap κ ν cap) (k : κ) : Prop :=
  k ∈ m.map ∨ m.map.keys.card < cap

instance (m : BoundedMap κ ν cap) (k : κ) : Decidable (m.Accepts k) :=
  inferInstanceAs (Decidable (_ ∨ _))

theorem keys_insert (m : Finmap fun _ : κ => ν) (k : κ) (v : ν) :
    (m.insert k v).keys = Insert.insert k m.keys := by
  ext k'
  simp [Finmap.mem_keys, Finmap.mem_insert]

/-- Write a key; a full map drops a new one. -/
def insert (m : BoundedMap κ ν cap) (k : κ) (v : ν) : BoundedMap κ ν cap :=
  if h : m.Accepts k then
    { map := m.map.insert k v
      card_le := by
        rw [keys_insert]
        rcases h with hmem | hroom
        · rw [Finset.insert_eq_of_mem (Finmap.mem_keys.mpr hmem)]
          exact m.card_le
        · exact (Finset.card_insert_le _ _).trans hroom }
  else m

/-- Remove a key. -/
def erase (m : BoundedMap κ ν cap) (k : κ) : BoundedMap κ ν cap where
  map := m.map.erase k
  card_le := by
    rw [Finmap.keys_erase]
    exact (Finset.card_erase_le).trans m.card_le

variable {m : BoundedMap κ ν cap} {k k' : κ}

@[simp] theorem lookup_empty (k : κ) : (empty : BoundedMap κ ν cap).lookup k = none :=
  Finmap.lookup_empty k

theorem lookup_insert_self (h : m.Accepts k) (v : ν) : (m.insert k v).lookup k = some v := by
  rw [insert, dif_pos h]
  exact Finmap.lookup_insert m.map

theorem lookup_insert_of_ne (h : k' ≠ k) (v : ν) : (m.insert k v).lookup k' = m.lookup k' := by
  rw [insert]
  split
  · exact Finmap.lookup_insert_of_ne m.map h
  · rfl

theorem insert_of_not_accepts (h : ¬m.Accepts k) (v : ν) : m.insert k v = m := by
  rw [insert, dif_neg h]

@[simp] theorem lookup_erase_self (m : BoundedMap κ ν cap) (k : κ) : (m.erase k).lookup k = none :=
  Finmap.lookup_erase k m.map

theorem lookup_erase_of_ne (h : k' ≠ k) : (m.erase k).lookup k' = m.lookup k' :=
  Finmap.lookup_erase_ne h

theorem lookup_isSome_iff : (m.lookup k).isSome ↔ k ∈ m.map.keys :=
  Finmap.lookup_isSome.trans Finmap.mem_keys.symm

end BoundedMap

/-! ## Slot tables -/

namespace SlotTable

variable {κ ν : Type*} {cap : ℕ} [DecidableEq κ]

/-- The table and the map hold the same keys with the same values. -/
def Implements (t : SlotTable κ ν cap) (m : BoundedMap κ ν cap) : Prop :=
  ∀ k, t.get k = m.lookup k

namespace Implements

variable {t : SlotTable κ ν cap} {m : BoundedMap κ ν cap}

theorem empty : (SlotTable.empty : SlotTable κ ν cap).Implements BoundedMap.empty := by
  intro k
  rw [get_empty, BoundedMap.lookup_empty]

/-- There are as many slots in use as keys. -/
theorem card_eq (h : t.Implements m) : m.map.keys.card = (keys t.slots).length := by
  have hkeys : m.map.keys = (keys t.slots).toFinset := by
    ext k
    rw [← BoundedMap.lookup_isSome_iff, ← h k, get_isSome_iff, List.mem_toFinset]
  rw [hkeys, List.toFinset_card_of_nodup t.nodup]

theorem accepts_iff (h : t.Implements m) (k : κ) : m.Accepts k ↔ ¬t.FullFor k := by
  have hle := t.size_le
  rw [fullFor_iff, BoundedMap.Accepts, h.card_eq, ← Finmap.mem_keys,
    ← BoundedMap.lookup_isSome_iff, ← h k]
  cases t.get k with
  | none => simp; omega
  | some v => simp

theorem put (h : t.Implements m) (k : κ) (v : ν) : (t.put k v).Implements (m.insert k v) := by
  intro k'
  by_cases hk : k' = k
  · subst hk
    by_cases haccepts : m.Accepts k'
    · rw [BoundedMap.lookup_insert_self haccepts, get_put_self ((h.accepts_iff k').mp haccepts)]
    · have hfull : t.FullFor k' := not_not.mp (mt (h.accepts_iff k').mpr haccepts)
      rw [BoundedMap.insert_of_not_accepts haccepts, get_put_of_full hfull, h k']
  · rw [get_put_of_ne _ hk, BoundedMap.lookup_insert_of_ne hk, h k']

theorem remove (h : t.Implements m) (k : κ) : (t.remove k).Implements (m.erase k) := by
  intro k'
  by_cases hk : k' = k
  · subst hk
    rw [get_remove_self, BoundedMap.lookup_erase_self]
  · rw [get_remove_of_ne _ hk, BoundedMap.lookup_erase_of_ne hk, h k']

end Implements

end SlotTable
