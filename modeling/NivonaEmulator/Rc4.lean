import NivonaEmulator.Crypto
import NivonaEmulator.Lib.KeystreamLoop
import NivonaEmulator.Link

/-!
# RC4 on its table and buffers

The two loops of the cipher as they run: the 256-byte table on the stack, the
exchange of two entries through a temporary, and the memory that `in` and `out`
point into, with every access checked.  The table is a permutation after every
round, the text never reaches it, and what is written is what the cipher of the
frames computes, also when `out` is `in`.
-/

namespace Nivona

open CheckedBuffer Keystream

/-! ## The table -/

/-- The table is a permutation of the 256 byte values. -/
def IsPermutation (s : Vector UInt8 256) : Prop :=
  Function.Bijective (sbox s)

theorem sbox_eq (s : Vector UInt8 256) (j : UInt8) (h : j.toNat < 256) :
    sbox s j = s[j.toNat] := rfl

theorem load_sbox (s : Vector UInt8 256) (j : UInt8) : load s j.toNat = some (sbox s j) :=
  load_eq j.toNat_lt

theorem identityTable_permutation : IsPermutation identityTable := by
  have hid : sbox identityTable = id := by
    funext j
    simp [sbox_eq _ j j.toNat_lt, identityTable]
  rw [IsPermutation, hid]
  exact Function.bijective_id

/-- Exchanging two entries is a transposition of the indices. -/
theorem sbox_swapEntries (s : Vector UInt8 256) (i j : UInt8) :
    sbox (swapEntries s i j) = sbox s ∘ Equiv.swap i j := by
  funext k
  rw [Function.comp_apply, sbox_eq _ k k.toNat_lt, swapEntries, Vector.getElem_swap,
    Equiv.swap_apply_def]
  simp only [UInt8.toNat_inj, apply_ite (sbox s)]
  rfl

theorem IsPermutation.swapEntries {s : Vector UInt8 256} (h : IsPermutation s) (i j : UInt8) :
    IsPermutation (swapEntries s i j) := by
  rw [IsPermutation, sbox_swapEntries]
  exact h.comp (Equiv.swap i j).bijective

/-- Exchange two entries through a temporary. -/
def exchange (s : Vector UInt8 256) (i j : ℕ) : Option (Vector UInt8 256) := do
  let t ← load s i
  let y ← load s j
  let s ← store s i y
  store s j t

theorem exchange_eq (s : Vector UInt8 256) (i j : UInt8) :
    exchange s i.toNat j.toNat = some (swapEntries s i j) := by
  have hi := i.toNat_lt
  have hj := j.toNat_lt
  have hswap : (s.set i.toNat s[j.toNat]).set j.toNat s[i.toNat] = swapEntries s i j := rfl
  simp [exchange, load_eq hi, load_eq hj, store_eq hi, store_eq hj, hswap]

/-! ## The key schedule -/

/-- One round of the key schedule; there is no remainder by a key length of 0. -/
def keyScheduleStep (key : List UInt8) (st : Vector UInt8 256 × UInt8) (i : ℕ) :
    Option (Vector UInt8 256 × UInt8) := do
  let x ← load st.1 i
  let k ← key[i % key.length]?
  let j := st.2 + x + k
  let s ← exchange st.1 i j.toNat
  some (s, j)

/-- Table and `j` after `n` rounds of the key schedule. -/
def keySchedule (key : List UInt8) (n : ℕ) : Option (Vector UInt8 256 × UInt8) :=
  (List.range n).foldlM (keyScheduleStep key) (identityTable, 0)

/-- The same without the checks. -/
def scheduled (key : List UInt8) (n : ℕ) : Vector UInt8 256 × UInt8 :=
  ((List.finRange 256).take n).foldl (keyScheduleRound key) (identityTable, 0)

theorem scheduled_succ (key : List UInt8) {n : ℕ} (hn : n < 256) :
    scheduled key (n + 1) = keyScheduleRound key (scheduled key n) ⟨n, hn⟩ := by
  have hget : (List.finRange 256)[n]? = some ⟨n, hn⟩ := by
    rw [List.getElem?_eq_getElem (by simpa using hn), List.getElem_finRange]
    rfl
  rw [scheduled, List.take_add_one, hget, Option.toList_some, List.foldl_append]
  rfl

theorem scheduled_all (key : List UInt8) :
    rc4Init key = { s := (scheduled key 256).1, i := 0, j := 0 } := by
  rw [scheduled, List.take_of_length_le (by simp), rc4Init]

theorem keyScheduleStep_eq {key : List UInt8} (hkey : 1 ≤ key.length)
    (st : Vector UInt8 256 × UInt8) {i : ℕ} (hi : i < 256) :
    keyScheduleStep key st i = some (keyScheduleRound key st ⟨i, hi⟩) := by
  have hmod : i % key.length < key.length := Nat.mod_lt _ hkey
  have hbyte : key[i % key.length]? = some (key.getD (i % key.length) 0) := by
    rw [List.getD_eq_getElem?_getD, List.getElem?_eq_getElem hmod, Option.getD_some]
  have hindex : (UInt8.ofNat i).toNat = i := UInt8.toNat_ofNat_of_lt hi
  have hexchange := exchange_eq st.1 (UInt8.ofNat i)
    (st.2 + st.1[i] + key.getD (i % key.length) 0)
  rw [hindex] at hexchange
  simp only [keyScheduleStep, load_eq hi, hbyte, Option.bind_eq_bind, Option.bind_some, hexchange]
  rfl

/-- With a key that is not empty, no round of the key schedule reads outside table or key. -/
theorem keySchedule_eq {key : List UInt8} (hkey : 1 ≤ key.length) {n : ℕ} (hn : n ≤ 256) :
    keySchedule key n = some (scheduled key n) := by
  induction n with
  | zero => rfl
  | succ n ih =>
      have hlast : n < 256 := hn
      have hrun := ih (by omega)
      rw [keySchedule] at hrun
      rw [keySchedule, List.range_succ, List.foldlM_append, hrun, scheduled_succ key hlast]
      simpa using keyScheduleStep_eq hkey (scheduled key n) hlast

theorem scheduled_permutation (key : List UInt8) {n : ℕ} (hn : n ≤ 256) :
    IsPermutation (scheduled key n).1 := by
  induction n with
  | zero => exact identityTable_permutation
  | succ n ih =>
      rw [scheduled_succ key hn]
      exact (ih (by omega)).swapEntries _ _

/-! ## The output loop -/

/-- A call: where `in` and `out` point to in the memory, and how far they reach. -/
structure Rc4Call (m : ℕ) where
  inAt : ℕ
  outAt : ℕ
  len : ℕ
  in_fits : inAt + len ≤ m
  out_fits : outAt + len ≤ m

/-- One round of the output loop. -/
def outputStep {m : ℕ} (inAt outAt : ℕ) (r : Rc4State × Vector UInt8 m) (k : ℕ) :
    Option (Rc4State × Vector UInt8 m) := do
  let ii := r.1.i + 1
  let x ← load r.1.s ii.toNat
  let jj := r.1.j + x
  let s ← exchange r.1.s ii.toNat jj.toNat
  let a ← load s ii.toNat
  let b ← load s jj.toNat
  let z ← load s (a + b).toNat
  let byte ← load r.2 (inAt + k)
  let mem ← store r.2 (outAt + k) (byte ^^^ z)
  some ({ s := s, i := ii, j := jj }, mem)

/-- The output loop is the loop of a keystream cipher. -/
theorem outputStep_eq {m : ℕ} (inAt outAt : ℕ) (r : Rc4State × Vector UInt8 m) (k : ℕ) :
    outputStep inAt outAt r k = loopRound rc4Round (· ^^^ ·) inAt outAt r k := by
  simp only [outputStep, load_sbox, Option.bind_eq_bind, Option.bind_some, exchange_eq]
  rfl

theorem rc4Round_permutation {st : Rc4State} (h : IsPermutation st.s) :
    IsPermutation (rc4Round st).2.s :=
  h.swapEntries _ _

/-- The table stays a permutation for as long as the keystream runs. -/
theorem stateAt_permutation {st : Rc4State} (h : IsPermutation st.s) (k : ℕ) :
    IsPermutation (stateAt rc4Round st k).s :=
  stateAt_invariant (P := fun st : Rc4State => IsPermutation st.s)
    (fun _ => rc4Round_permutation) h k

/-- Table and indices after `k` rounds of the output loop: the key decides them. -/
def rc4StateAfter (key : List UInt8) (k : ℕ) : Rc4State :=
  stateAt rc4Round (rc4Init key) k

theorem rc4Init_permutation (key : List UInt8) : IsPermutation (rc4Init key).s := by
  rw [scheduled_all]
  exact scheduled_permutation key (Nat.le_refl 256)

namespace Rc4Call

variable {m : ℕ}

/-- Locals and memory after `k` rounds of the output loop. -/
def outputLoop (call : Rc4Call m) (key : List UInt8) (mem : Vector UInt8 m) (k : ℕ) :
    Option (Rc4State × Vector UInt8 m) := do
  let st ← keySchedule key 256
  (List.range k).foldlM (outputStep call.inAt call.outAt) ({ s := st.1, i := 0, j := 0 }, mem)

/-- The memory after `nivona_rc4`. -/
def nivonaRc4 (call : Rc4Call m) (key : List UInt8) (mem : Vector UInt8 m) :
    Option (Vector UInt8 m) := do
  let r ← call.outputLoop key mem call.len
  some r.2

/-- The bytes at `in`. -/
def input (call : Rc4Call m) (mem : Vector UInt8 m) : List UInt8 :=
  (mem.toList.drop call.inAt).take call.len

/-- `out` is `in`, or it lies apart from it, or it starts before it. -/
def ReadsAhead (call : Rc4Call m) : Prop :=
  Keystream.ReadsAhead call.inAt call.outAt call.len

theorem outputLoop_eq (call : Rc4Call m) {key : List UInt8} (hkey : 1 ≤ key.length)
    (mem : Vector UInt8 m) (k : ℕ) :
    call.outputLoop key mem k =
      loop rc4Round (· ^^^ ·) call.inAt call.outAt (rc4Init key, mem) k := by
  have hround : outputStep call.inAt call.outAt (m := m) =
      loopRound rc4Round (· ^^^ ·) call.inAt call.outAt := by
    funext r k
    exact outputStep_eq call.inAt call.outAt r k
  rw [outputLoop, keySchedule_eq hkey (Nat.le_refl 256), hround, scheduled_all]
  rfl

/-- Whatever the memory holds, after `k` rounds the locals are those of the keystream. -/
theorem outputLoop_state (call : Rc4Call m) {key : List UInt8} (hkey : 1 ≤ key.length)
    (mem : Vector UInt8 m) {k : ℕ} (hk : k ≤ call.len) :
    ∃ mem', call.outputLoop key mem k = some (rc4StateAfter key k, mem') := by
  rw [call.outputLoop_eq hkey]
  exact loop_state _ mem call.in_fits call.out_fits hk

/-- The loop encrypts what is at `in` to `out`. -/
theorem nivonaRc4_encrypted (call : Rc4Call m) {key : List UInt8} (hkey : 1 ≤ key.length)
    (mem : Vector UInt8 m) (hahead : call.ReadsAhead) :
    ∃ mem', call.nivonaRc4 key mem = some mem' ∧
      Encrypted rc4Round (· ^^^ ·) call.inAt call.outAt (rc4Init key) mem mem' call.len := by
  obtain ⟨mem', hrun, hencrypted⟩ :
      ∃ mem', loop rc4Round (· ^^^ ·) call.inAt call.outAt (rc4Init key, mem) call.len =
          some (stateAt rc4Round (rc4Init key) call.len, mem') ∧
        Encrypted rc4Round (· ^^^ ·) call.inAt call.outAt (rc4Init key) mem mem' call.len :=
    loop_encrypted _ mem hahead call.in_fits call.out_fits (Nat.le_refl call.len)
  refine ⟨mem', ?_, hencrypted⟩
  rw [nivonaRc4, call.outputLoop_eq hkey, hrun]
  rfl

/-- `out` receives the encrypted bytes of `in`, and the rest of the memory stays. -/
theorem nivonaRc4_eq (call : Rc4Call m) {key : List UInt8} (hkey : 1 ≤ key.length)
    (mem : Vector UInt8 m) (hahead : call.ReadsAhead) :
    ∃ mem', call.nivonaRc4 key mem = some mem' ∧
      mem'.toList = mem.toList.take call.outAt ++ Nivona.nivonaRc4 key (call.input mem) ++
        mem.toList.drop (call.outAt + call.len) := by
  obtain ⟨mem', hrun, hencrypted⟩ := call.nivonaRc4_encrypted hkey mem hahead
  exact ⟨mem', hrun, hencrypted.toList_eq⟩

end Rc4Call

/-- The core of the cipher: after every round of both loops the table is a permutation, which
in the output loop the key alone decides; `out` receives the cipher of `in`; and the cipher
adds the keystream of the key. -/
theorem nivonaRc4_core (key : List UInt8) (hkey : 1 ≤ key.length) :
    (∀ n ≤ 256, ∃ s j, keySchedule key n = some (s, j) ∧ IsPermutation s) ∧
      (∀ (m : ℕ) (call : Rc4Call m) (mem : Vector UInt8 m),
        (∀ k ≤ call.len, IsPermutation (rc4StateAfter key k).s ∧
          ∃ mem', call.outputLoop key mem k = some (rc4StateAfter key k, mem')) ∧
        (call.ReadsAhead → ∃ mem', call.nivonaRc4 key mem = some mem' ∧
          mem'.toList = mem.toList.take call.outAt ++ nivonaRc4 key (call.input mem) ++
            mem.toList.drop (call.outAt + call.len))) ∧
      (∀ input k, (nivonaRc4 key input)[k]? = input[k]?.map fun x => x ^^^ keystreamByte key k) ∧
      (∀ input, nivonaRc4 key (nivonaRc4 key input) = input) ∧
      ∀ input n, nivonaRc4 key (input.take n) = (nivonaRc4 key input).take n := by
  refine ⟨?_, ?_, getElem?_nivonaRc4 key, nivonaRc4_involutive key, nivonaRc4_take key⟩
  · intro n hn
    exact ⟨_, _, keySchedule_eq hkey hn, scheduled_permutation key hn⟩
  · intro m call mem
    refine ⟨?_, call.nivonaRc4_eq hkey mem⟩
    intro k hk
    have hperm := stateAt_permutation (rc4Init_permutation key) k
    exact ⟨hperm, call.outputLoop_state hkey mem hk⟩

/-- Three bytes encrypted in place under the bundled key. -/
theorem nivonaRc4_core_knownVector :
    ∃ mem', Rc4Call.nivonaRc4
        { inAt := 0, outAt := 0, len := 3, in_fits := by decide, out_fits := by decide }
        NIVONA_RC4_KEY #v[0x00, 0x00, 0x47] = some mem' ∧
      mem'.toList = [0x1F, 0xC8, 0x46] := by
  obtain ⟨mem', hrun, hmem⟩ := ((nivonaRc4_core NIVONA_RC4_KEY (by decide)).2.1 3
    { inAt := 0, outAt := 0, len := 3, in_fits := by decide, out_fits := by decide }
    #v[0x00, 0x00, 0x47]).2 (Or.inl (by decide))
  refine ⟨mem', hrun, ?_⟩
  rw [hmem]
  exact nivonaRc4WithMasterKey_three 0x00 0x00 0x47

/-! ## The calls of the frame code -/

/-- Encrypting in place twice leaves the memory as it was. -/
theorem Rc4Call.nivonaRc4_twice {m : ℕ} (call : Rc4Call m) {key : List UInt8}
    (hkey : 1 ≤ key.length) (mem : Vector UInt8 m) (hplace : call.outAt = call.inAt) :
    (call.nivonaRc4 key mem).bind (call.nivonaRc4 key) = some mem := by
  have hahead : call.ReadsAhead := Or.inl hplace.le
  obtain ⟨once, hrun, honce⟩ := call.nivonaRc4_encrypted hkey mem hahead
  obtain ⟨twice, hrun', htwice⟩ := call.nivonaRc4_encrypted hkey once hahead
  rw [hplace] at honce htwice
  rw [hrun, Option.bind_some, hrun', honce.twice xor_cancel htwice]

theorem masterKey_nonempty : 1 ≤ NIVONA_RC4_KEY.length := by decide

/-- The sender encrypts the tail of a frame where it stands. -/
theorem frameTail_inPlace {m : ℕ} (cmd : Cmd) (body rest : List UInt8) (frame : Vector UInt8 m)
    (hframe : frame.toList =
      FRAME_START :: (cmd ++ (body ++ [Nivona.checksum (cmd ++ body)] ++ rest)))
    (call : Rc4Call m) (hin : call.inAt = 1 + cmd.length) (hout : call.outAt = call.inAt)
    (hlen : call.len = body.length + 1) :
    ∃ frame', call.nivonaRc4 NIVONA_RC4_KEY frame = some frame' ∧
      frame'.toList = FRAME_START :: (cmd ++ (frameTail cmd body true ++ rest)) := by
  obtain ⟨frame', hrun, hmem⟩ := call.nivonaRc4_eq masterKey_nonempty frame
    (Or.inl hout.le)
  refine ⟨frame', hrun, ?_⟩
  have hopen : (FRAME_START :: cmd).length = call.inAt := by
    rw [hin, List.length_cons, Nat.add_comm]
  have hplain : (body ++ [Nivona.checksum (cmd ++ body)]).length = call.len := by
    rw [hlen, List.length_append, List.length_singleton]
  rw [← List.cons_append] at hframe
  rw [hmem, Rc4Call.input, hout, hframe, ← hopen, List.take_left, List.drop_left, ← hplain,
    List.take_left, ← List.drop_drop, List.drop_left, List.drop_left]
  simp [frameTail, nivonaRc4WithMasterKey]

/-- The parser decrypts the tail of a frame from one buffer to the start of another. -/
theorem nivonaRc4_between {a b : ℕ} (buf : Vector UInt8 a) (plain : Vector UInt8 b)
    (call : Rc4Call (a + b)) (hin : call.inAt + call.len ≤ a) (hout : call.outAt = a)
    {data : List UInt8} (hdata : slice buf call.inAt call.len = some data) :
    ∃ plain', copyTo plain 0 (nivonaRc4WithMasterKey data) = some plain' ∧
      call.nivonaRc4 NIVONA_RC4_KEY (buf ++ plain) = some (buf ++ plain') := by
  have hfits := call.out_fits
  obtain ⟨mem', hrun, hmem⟩ := call.nivonaRc4_eq masterKey_nonempty
    (buf ++ plain) (Or.inr (by omega))
  rw [slice_eq hin] at hdata
  obtain rfl := Option.some.inj hdata
  have hlen : (nivonaRc4WithMasterKey ((buf.toList.drop call.inAt).take call.len)).length =
      call.len := by
    rw [length_nivonaRc4WithMasterKey, List.length_take, List.length_drop, Vector.length_toList]
    omega
  obtain ⟨plain', hcopy, hplain⟩ := copyTo_eq plain
    (show 0 + (nivonaRc4WithMasterKey ((buf.toList.drop call.inAt).take call.len)).length ≤ b by
      omega)
  have hinput : call.input (buf ++ plain) = (buf.toList.drop call.inAt).take call.len := by
    rw [Rc4Call.input, Vector.toList_append, List.drop_append_of_le_length (by simp; omega),
      List.take_append_of_le_length (by simp; omega)]
  have hbuf : buf.toList.length = call.outAt := by
    rw [Vector.length_toList, hout]
  have hend : mem' = buf ++ plain' := by
    apply Vector.toList_inj.mp
    rw [hmem, hinput, Vector.toList_append, Vector.toList_append, hplain, hlen, ← hbuf,
      List.take_left, ← List.drop_drop, List.drop_left]
    simp [nivonaRc4WithMasterKey]
  exact ⟨plain', hcopy, by rw [hrun, hend]⟩

end Nivona
