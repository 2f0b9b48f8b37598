import Mathlib.Data.List.AList

/-!
# Non-volatile storage

The flash store is the platform's: a faithful key-value store, one map of
entries for each namespace.  A namespace exists once it has been opened for
writing, and every write takes effect at once.  The entry iterator visits each
entry of a namespace once, in an order the platform chooses.
-/

namespace Nivona

/-- The namespaces `niv_num`, `niv_alpha`, `niv_consum` and `niv_fam`. -/
inductive NvsNamespace
  | num | alpha | consum | fam
  deriving DecidableEq, Repr

/-- Characters of an entry key. -/
abbrev NvsKey := List Char

inductive NvsValue
  | i32 (v : Int32)
  | blob (bytes : List UInt8)
  | str (s : String)
  deriving DecidableEq, Repr

abbrev NvsEntries := AList fun _ : NvsKey => NvsValue

/-- Contents of the flash; `none` is a namespace that was never created. -/
abbrev Nvs := NvsNamespace → Option NvsEntries

/-- Flash on which nothing was ever written. -/
def Nvs.empty : Nvs := fun _ => none

/-- Entries of a namespace opened for writing, created on the first open. -/
def Nvs.openReadwrite (nvs : Nvs) (ns : NvsNamespace) : NvsEntries :=
  (nvs ns).getD ∅

/-- Store an entry. -/
def Nvs.set (nvs : Nvs) (ns : NvsNamespace) (key : NvsKey) (v : NvsValue) : Nvs :=
  Function.update nvs ns (some ((nvs.openReadwrite ns).insert key v))

/-- Remove an entry; a missing one is left missing. -/
def Nvs.eraseKey (nvs : Nvs) (ns : NvsNamespace) (key : NvsKey) : Nvs :=
  Function.update nvs ns (some ((nvs.openReadwrite ns).erase key))

/-- Read an entry through a read-only handle. -/
def Nvs.get (nvs : Nvs) (ns : NvsNamespace) (key : NvsKey) : Option NvsValue :=
  (nvs ns).bind fun entries => entries.lookup key

/-- An entry of integer type. -/
def Nvs.getI32 (nvs : Nvs) (ns : NvsNamespace) (key : NvsKey) : Option Int32 :=
  match nvs.get ns key with
  | some (.i32 v) => some v
  | _ => none

/-- A blob that fits a buffer of `size` bytes. -/
def Nvs.getBlob (nvs : Nvs) (ns : NvsNamespace) (key : NvsKey) (size : ℕ) :
    Option (List UInt8) :=
  match nvs.get ns key with
  | some (.blob bytes) => if bytes.length ≤ size then some bytes else none
  | _ => none

/-- A string that fits a buffer of `size` bytes with its terminator. -/
def Nvs.getStr (nvs : Nvs) (ns : NvsNamespace) (key : NvsKey) (size : ℕ) :
    Option String :=
  match nvs.get ns key with
  | some (.str s) => if s.utf8ByteSize + 1 ≤ size then some s else none
  | _ => none

/-- The order in which the platform's iterator visits a list of keys. -/
structure NvsIterator where
  visit : List NvsKey → List NvsKey
  perm : ∀ keys, (visit keys).Perm keys

/-- The iterator that visits entries in storage order. -/
def NvsIterator.storageOrder : NvsIterator where
  visit keys := keys
  perm _ := List.Perm.refl _

/-- Keys of the entries of a namespace that have the wanted type, in visiting
order; none when the namespace does not exist. -/
def Nvs.entryFind (nvs : Nvs) (it : NvsIterator) (ns : NvsNamespace)
    (ofType : NvsValue → Bool) : List NvsKey :=
  match nvs ns with
  | none => []
  | some entries =>
      it.visit ((entries.entries.filter fun e => ofType e.2).map Sigma.fst)

/-! ## Reading back -/

section

variable (nvs : Nvs) {ns ns' : NvsNamespace} {key key' : NvsKey}

/-- A missing namespace reads like an empty one. -/
theorem Nvs.get_eq_lookup :
    nvs.get ns key = (nvs.openReadwrite ns).lookup key := by
  rw [Nvs.get, Nvs.openReadwrite]
  cases nvs ns <;> simp

@[simp] theorem Nvs.get_set_self (v : NvsValue) :
    (nvs.set ns key v).get ns key = some v := by
  simp [Nvs.get, Nvs.set]

theorem Nvs.get_set_of_key_ne (h : key' ≠ key) (v : NvsValue) :
    (nvs.set ns key v).get ns key' = nvs.get ns key' := by
  rw [nvs.get_eq_lookup]
  simp [Nvs.get, Nvs.set, AList.lookup_insert_ne h]

theorem Nvs.get_set_of_ns_ne (h : ns' ≠ ns) (v : NvsValue) :
    (nvs.set ns key v).get ns' key' = nvs.get ns' key' := by
  simp [Nvs.get, Nvs.set, Function.update_of_ne h]

@[simp] theorem Nvs.get_eraseKey_self :
    (nvs.eraseKey ns key).get ns key = none := by
  simp [Nvs.get, Nvs.eraseKey]

theorem Nvs.get_eraseKey_of_key_ne (h : key' ≠ key) :
    (nvs.eraseKey ns key).get ns key' = nvs.get ns key' := by
  rw [nvs.get_eq_lookup]
  simp [Nvs.get, Nvs.eraseKey, AList.lookup_erase_ne h]

theorem Nvs.get_eraseKey_of_ns_ne (h : ns' ≠ ns) :
    (nvs.eraseKey ns key).get ns' key' = nvs.get ns' key' := by
  simp [Nvs.get, Nvs.eraseKey, Function.update_of_ne h]

@[simp] theorem Nvs.get_empty : Nvs.empty.get ns key = none := rfl

/-- The iterator visits exactly the stored keys of the wanted type. -/
theorem Nvs.mem_entryFind (it : NvsIterator) (ofType : NvsValue → Bool) :
    key ∈ nvs.entryFind it ns ofType ↔
      ∃ v, nvs.get ns key = some v ∧ ofType v = true := by
  rw [Nvs.entryFind, Nvs.get]
  cases hns : nvs ns with
  | none => simp
  | some entries =>
      simp only [Option.bind_some]
      rw [(it.perm _).mem_iff]
      simp only [List.mem_map, List.mem_filter, Sigma.exists, exists_and_right,
        exists_eq_right, ← AList.mem_lookup_iff, Option.mem_def]

/-- No key is visited twice. -/
theorem Nvs.nodup_entryFind (it : NvsIterator) (ns : NvsNamespace)
    (ofType : NvsValue → Bool) : (nvs.entryFind it ns ofType).Nodup := by
  rw [Nvs.entryFind]
  cases nvs ns with
  | none => exact List.nodup_nil
  | some entries =>
      rw [(it.perm _).nodup_iff]
      exact List.Nodup.sublist (List.filter_sublist.map _) entries.nodupKeys

end

end Nivona
