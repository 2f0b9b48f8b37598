import NivonaEmulator.Lib.BigEndian
import NivonaEmulator.Link

/-!
# The reference client

Frame building and parsing as the client side does it.
-/

namespace Nivona

namespace Client

/-- Complement of the byte sum, over unbounded integers. -/
def checksum (bytes : List UInt8) : UInt8 :=
  UInt8.ofInt (~~~((bytes.map UInt8.toNat).sum : ℤ))

/-- `build_frame`. -/
def buildFrame (cmd : Cmd) (payload keyPrefix : List UInt8) (encrypt : Bool) : List UInt8 :=
  let body := keyPrefix ++ payload
  let plain := body ++ [checksum (cmd ++ body)]
  [FRAME_START] ++ cmd ++ (if encrypt then nivonaRc4WithMasterKey plain else plain) ++
    [FRAME_END]

/-- `parse_frame`, for a command of a known length. -/
def parseFrame (cmdLen : ℕ) (encrypted : Bool) (keyPrefixLen : ℕ) (frame : List UInt8) :
    Option (Cmd × List UInt8) :=
  if frame.head? = some FRAME_START ∧ frame.getLast? = some FRAME_END then
    let cmd := (frame.drop 1).take cmdLen
    let rest := (frame.drop (1 + cmdLen)).dropLast
    let plain := if encrypted then nivonaRc4WithMasterKey rest else rest
    let body := plain.dropLast
    if plain.getLast? = some (checksum (cmd ++ body)) then
      some (cmd, body.drop keyPrefixLen)
    else none
  else none

/-- `build_hu_frame` for a given seed. -/
def buildHuFrame (seed : List UInt8) : List UInt8 :=
  buildFrame CMD_HANDSHAKE (seed ++ nivonaHuVerifier seed 0 4) [] true

/-! ## Both sides compute the same frames -/

theorem checksum_eq (bytes : List UInt8) : checksum bytes = Nivona.checksum bytes := by
  have hfold (bs : List UInt8) (acc : UInt8) :
      (bs.foldl (fun s b => s + b) acc).toNat =
        (acc.toNat + (bs.map UInt8.toNat).sum) % 256 := by
    induction bs generalizing acc with
    | nil => simp
    | cons b bs ih =>
        rw [List.foldl_cons, ih, List.map_cons, List.sum_cons, UInt8.toNat_add]
        omega
  apply UInt8.toNat_inj.mp
  have hsum := hfold bytes 0
  have hnot (n : ℕ) : ~~~(n : ℤ) = -(n : ℤ) - 1 := by
    change Int.negSucc n = _
    omega
  have hof := BigEndian.toNat_ofInt (~~~((bytes.map UInt8.toNat).sum : ℤ))
  rw [checksum, Nivona.checksum, UInt8.toNat_not, hsum]
  rw [hnot] at hof ⊢
  simp only [UInt8.toNat_zero, Nat.zero_add, UInt8.size]
  omega

theorem buildFrame_eq (cmd : Cmd) (payload keyPrefix : List UInt8) (encrypt : Bool) :
    buildFrame cmd payload keyPrefix encrypt = frameOf cmd (keyPrefix ++ payload) encrypt := by
  simp [buildFrame, frameOf, frameTail, checksum_eq]

/-- The client decodes what the device builds. -/
theorem parseFrame_frameOf (cmd : Cmd) (body : List UInt8) (encrypt : Bool) (k : ℕ) :
    parseFrame cmd.length encrypt k (frameOf cmd body encrypt) = some (cmd, body.drop k) := by
  rw [parseFrame, frameOf]
  have hlast : (FRAME_START :: (cmd ++ (frameTail cmd body encrypt ++ [FRAME_END]))).getLast? =
      some FRAME_END := by
    rw [← List.append_assoc, ← List.cons_append, List.getLast?_concat]
  have hcmd : ((FRAME_START :: (cmd ++ (frameTail cmd body encrypt ++ [FRAME_END]))).drop
      1).take cmd.length = cmd := by
    simp
  have hrest : ((FRAME_START :: (cmd ++ (frameTail cmd body encrypt ++ [FRAME_END]))).drop
      (1 + cmd.length)).dropLast = frameTail cmd body encrypt := by
    rw [Nat.add_comm, List.drop_succ_cons, List.drop_left, List.dropLast_concat]
  have hplain : (if encrypt then nivonaRc4WithMasterKey (frameTail cmd body encrypt)
      else frameTail cmd body encrypt) = body ++ [Nivona.checksum (cmd ++ body)] := by
    cases encrypt <;> simp [frameTail]
  rw [if_pos ⟨rfl, hlast⟩]
  dsimp only
  rw [hcmd, hrest, hplain, List.dropLast_concat, List.getLast?_concat, checksum_eq, if_pos rfl]

end Client

end Nivona
