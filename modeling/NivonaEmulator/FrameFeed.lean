import NivonaEmulator.FrameOpening

/-!
# Feeding whole frames

What the accumulator does with the bytes of one frame, and with the bytes
between frames.
-/

namespace Nivona

/-- `m` while the bytes `buf` of a frame have been received. -/
def Machine.receiving (m : Machine) (buf : List UInt8)
    (h : buf.length ≤ MAX_FRAME_BYTES) : Machine :=
  m.setFrame (m.link.frame.withBuf true buf h)

section

variable (m : Machine) {buf : List UInt8} (h : buf.length ≤ MAX_FRAME_BYTES)

@[simp] theorem receiving_core : (m.receiving buf h).core = m.core := rfl

@[simp] theorem receiving_calls : (m.receiving buf h).link.calls = m.link.calls := rfl

@[simp] theorem receiving_randomKeys :
    (m.receiving buf h).link.randomKeys = m.link.randomKeys := rfl

@[simp] theorem receiving_buf : (m.receiving buf h).link.frame.buf = buf := rfl

@[simp] theorem receiving_handshakeDone :
    (m.receiving buf h).link.frame.handshakeDone = m.link.frame.handshakeDone := rfl

@[simp] theorem receiving_keyPrefix :
    (m.receiving buf h).link.frame.keyPrefix = m.link.frame.keyPrefix := rfl

theorem receiving_congr {buf' : List UInt8} (e : buf = buf') :
    m.receiving buf h = m.receiving buf' (e ▸ h) := by
  subst e
  rfl

end

@[simp] theorem nivonaFrameFeed_nil (m : Machine) : nivonaFrameFeed m [] = m := rfl

@[simp] theorem nivonaFrameFeed_cons (m : Machine) (b : UInt8) (bs : List UInt8) :
    nivonaFrameFeed m (b :: bs) = nivonaFrameFeed (feedByte m b) bs := rfl

/-- Feeding is insensitive to where the stream is cut. -/
theorem nivonaFrameFeed_append (m : Machine) (as bs : List UInt8) :
    nivonaFrameFeed m (as ++ bs) = nivonaFrameFeed (nivonaFrameFeed m as) bs :=
  List.foldl_append

theorem foldl_nivonaFrameFeed (chunks : List (List UInt8)) (m : Machine) :
    chunks.foldl nivonaFrameFeed m = nivonaFrameFeed m chunks.flatten := by
  induction chunks generalizing m with
  | nil => rfl
  | cons c cs ih => rw [List.foldl_cons, ih, List.flatten_cons, nivonaFrameFeed_append]

/-! ## Between frames -/

theorem feedByte_start {m : Machine} (hidle : m.link.frame.inFrame = false) :
    feedByte m FRAME_START = m.receiving [FRAME_START] (by decide) := by
  rw [feedByte, if_pos hidle, if_pos rfl]
  rfl

theorem feedByte_noise {m : Machine} (hidle : m.link.frame.inFrame = false) {b : UInt8}
    (hb : b ≠ FRAME_START) : feedByte m b = m := by
  rw [feedByte, if_pos hidle, if_neg hb]

/-- Bytes other than the start marker are skipped between frames. -/
theorem feed_noise {m : Machine} (hidle : m.link.frame.inFrame = false)
    {noise : List UInt8} (hnoise : FRAME_START ∉ noise) :
    nivonaFrameFeed m noise = m := by
  induction noise with
  | nil => rfl
  | cons b bs ih =>
      rw [List.mem_cons, not_or] at hnoise
      rw [nivonaFrameFeed_cons, feedByte_noise hidle (Ne.symm hnoise.1), ih hnoise.2]

/-! ## Inside a frame -/

theorem length_push_le {buf : List UInt8} {b : UInt8}
    (hroom : buf.length < MAX_FRAME_BYTES) : (buf ++ [b]).length ≤ MAX_FRAME_BYTES := by
  rw [List.length_append, List.length_singleton]
  exact hroom

theorem pushByte_receiving (m : Machine) {buf : List UInt8} {b : UInt8}
    (h : buf.length ≤ MAX_FRAME_BYTES) (hroom : buf.length < MAX_FRAME_BYTES) :
    pushByte (m.receiving buf h) b hroom =
      m.receiving (buf ++ [b]) (length_push_le hroom) := rfl

theorem feedByte_incomplete (m : Machine) {buf : List UInt8} {b : UInt8}
    (h : buf.length ≤ MAX_FRAME_BYTES) (hroom : buf.length < MAX_FRAME_BYTES)
    (hinc : frameComplete (buf ++ [b]) b = false) :
    feedByte (m.receiving buf h) b = m.receiving (buf ++ [b]) (length_push_le hroom) := by
  rw [feedByte, if_neg (by simp [Machine.receiving, Machine.setFrame, Frame.withBuf]),
    dif_pos (show (m.receiving buf h).link.frame.buf.length < _ from hroom)]
  dsimp only
  rw [pushByte_receiving m h hroom, receiving_buf, hinc]
  rfl

theorem feedByte_complete (m : Machine) {buf : List UInt8} {b : UInt8}
    (h : buf.length ≤ MAX_FRAME_BYTES) (hroom : buf.length < MAX_FRAME_BYTES)
    (hc : frameComplete (buf ++ [b]) b = true) :
    feedByte (m.receiving buf h) b =
      closeFrame (tryParse (m.receiving (buf ++ [b]) (length_push_le hroom))) := by
  rw [feedByte, if_neg (by simp [Machine.receiving, Machine.setFrame, Frame.withBuf]),
    dif_pos (show (m.receiving buf h).link.frame.buf.length < _ from hroom)]
  dsimp only
  rw [pushByte_receiving m h hroom, receiving_buf, hc]
  rfl

theorem receiving_self {m : Machine} (hin : m.link.frame.inFrame = true) :
    m = m.receiving m.link.frame.buf m.link.frame.length_buf := by
  rw [Machine.receiving, Machine.setFrame, Frame.withBuf, ← hin]

/-- The byte that ends a frame has it parsed. -/
theorem feedByte_ends {m : Machine} {b : UInt8} (hin : m.link.frame.inFrame = true)
    (hroom : m.link.frame.buf.length < MAX_FRAME_BYTES)
    (hc : frameComplete (m.link.frame.buf ++ [b]) b = true) :
    feedByte m b =
      closeFrame (tryParse (m.receiving (m.link.frame.buf ++ [b]) (length_push_le hroom))) := by
  have hfeed := feedByte_complete m m.link.frame.length_buf hroom hc
  rwa [← receiving_self hin] at hfeed

/-- A byte only moves the parser, or it ends a frame that is parsed. -/
theorem feedByte_setFrame_or_ends (m : Machine) (b : UInt8) :
    (∃ f, feedByte m b = m.setFrame f) ∨
    (m.link.frame.inFrame = true ∧ m.link.frame.buf.length < MAX_FRAME_BYTES ∧
      frameComplete (m.link.frame.buf ++ [b]) b = true) := by
  cases hin : m.link.frame.inFrame with
  | false =>
      left
      by_cases hb : b = FRAME_START
      · subst hb
        exact ⟨_, feedByte_start hin⟩
      · exact ⟨m.link.frame, feedByte_noise hin hb⟩
  | true =>
      by_cases hroom : m.link.frame.buf.length < MAX_FRAME_BYTES
      · cases hc : frameComplete (m.link.frame.buf ++ [b]) b with
        | false =>
            left
            have hfeed := feedByte_incomplete m m.link.frame.length_buf hroom hc
            rw [← receiving_self hin] at hfeed
            exact ⟨_, hfeed⟩
        | true => exact Or.inr ⟨rfl, hroom, rfl⟩
      · left
        rw [feedByte, if_neg (by simp [hin]), dif_neg hroom]
        exact ⟨_, rfl⟩

/-- A byte does nothing to calls and core, or it ends a frame that is parsed. -/
theorem feedByte_cases (m : Machine) (b : UInt8) :
    ((feedByte m b).link.calls = m.link.calls ∧ (feedByte m b).core = m.core) ∨
    (m.link.frame.inFrame = true ∧ m.link.frame.buf.length < MAX_FRAME_BYTES ∧
      frameComplete (m.link.frame.buf ++ [b]) b = true) := by
  rcases feedByte_setFrame_or_ends m b with ⟨f, hf⟩ | hends
  · left
    rw [hf]
    exact ⟨rfl, rfl⟩
  · exact Or.inr hends

@[simp] theorem closeFrame_calls (m : Machine) : (closeFrame m).link.calls = m.link.calls := rfl

@[simp] theorem closeFrame_core (m : Machine) : (closeFrame m).core = m.core := rfl

/-- Bytes that do not finish the frame are collected. -/
theorem feed_incomplete (m : Machine) (buf rest : List UInt8)
    (h : (buf ++ rest).length ≤ MAX_FRAME_BYTES)
    (hinc : ∀ pre b, pre ++ [b] <+: rest → frameComplete (buf ++ pre ++ [b]) b = false) :
    nivonaFrameFeed
      (m.receiving buf ((List.length_append ▸ Nat.le_add_right _ _).trans h)) rest =
        m.receiving (buf ++ rest) h := by
  induction rest generalizing buf with
  | nil => exact receiving_congr m _ (List.append_nil buf).symm
  | cons b rest ih =>
      have hroom : buf.length < MAX_FRAME_BYTES := by
        rw [List.length_append, List.length_cons] at h
        omega
      have hfirst : frameComplete (buf ++ [b]) b = false := by
        simpa using hinc [] b (by simp)
      have happ : buf ++ [b] ++ rest = buf ++ b :: rest := by simp
      rw [nivonaFrameFeed_cons, feedByte_incomplete m _ hroom hfirst,
        ih (buf ++ [b]) (happ ▸ h) fun pre c hpre => by
          have := hinc (b :: pre) c (by simpa using hpre)
          simpa using this]
      exact receiving_congr m _ happ

/-- The bytes of a frame before its last are collected. -/
theorem feed_init {m : Machine} (hidle : m.link.frame.inFrame = false) {mid : List UInt8}
    (h : (FRAME_START :: mid).length ≤ MAX_FRAME_BYTES)
    (hinc : ∀ pre b, pre ++ [b] <+: mid →
      frameComplete (FRAME_START :: (pre ++ [b])) b = false) :
    nivonaFrameFeed m (FRAME_START :: mid) = m.receiving (FRAME_START :: mid) h := by
  rw [nivonaFrameFeed_cons, feedByte_start hidle,
    feed_incomplete m [FRAME_START] mid h (by simpa using hinc)]
  rfl

/-- A whole frame is collected and then parsed. -/
theorem feed_frame {m : Machine} (hidle : m.link.frame.inFrame = false)
    {p q : List UInt8} {e : UInt8} (hp : p = FRAME_START :: (q ++ [e]))
    (h : p.length ≤ MAX_FRAME_BYTES)
    (hinc : ∀ pre b, pre ++ [b] <+: q → frameComplete (FRAME_START :: (pre ++ [b])) b = false)
    (hc : frameComplete p e = true) :
    nivonaFrameFeed m p = closeFrame (tryParse (m.receiving p h)) := by
  subst hp
  have hmid : (FRAME_START :: q).length < MAX_FRAME_BYTES := by
    simp only [List.length_cons, List.length_append, List.length_nil] at h ⊢
    omega
  change nivonaFrameFeed m ((FRAME_START :: q) ++ [e]) = _
  rw [nivonaFrameFeed_append, feed_init hidle hmid.le hinc, nivonaFrameFeed_cons,
    feedByte_complete m hmid.le hmid hc]
  rfl

/-! ## Requests -/

/-- Sizes of the bytes of a request are read off its third byte. -/
theorem expectedSize_hCmd (c : UInt8) (rest : List UInt8) :
    expectedSize (FRAME_START :: 0x48 :: c :: rest) = expectedRequestSize c := by
  simp [expectedSize]

theorem frameComplete_hCmd (c : UInt8) (rest : List UInt8) (b : UInt8) :
    frameComplete (FRAME_START :: 0x48 :: c :: rest) b =
      if 0 < expectedRequestSize c then rest.length + 3 == expectedRequestSize c
      else b == FRAME_END := by
  rw [frameComplete, expectedSize_hCmd]
  rfl

/-- Before the third byte only an end marker finishes a frame. -/
theorem frameComplete_short {buf : List UInt8} (hlen : buf.length < 3) (b : UInt8) :
    frameComplete buf b = (b == FRAME_END) := by
  have hsize : expectedSize buf = 0 := by
    rw [expectedSize, if_neg (by omega)]
  rw [frameComplete, hsize]
  rfl

/-- The first bytes of a request do not finish it when nothing behind them does. -/
theorem incomplete_hCmd {c : UInt8} {ct : List UInt8}
    (hc : expectedRequestSize c = 0 → c ≠ FRAME_END)
    (hthird : expectedRequestSize c ≠ 3)
    (hct : ∀ pre b, pre ++ [b] <+: ct →
      frameComplete (FRAME_START :: 0x48 :: c :: (pre ++ [b])) b = false)
    (pre : List UInt8) (b : UInt8) (hpre : pre ++ [b] <+: 0x48 :: c :: ct) :
    frameComplete (FRAME_START :: (pre ++ [b])) b = false := by
  rcases pre with _ | ⟨x, _ | ⟨y, pre⟩⟩
  · obtain ⟨rfl, -⟩ := by simpa using hpre
    rw [frameComplete_short (by simp)]
    rfl
  · have hx : x = 0x48 ∧ b = c := by simpa using hpre
    obtain ⟨rfl, rfl⟩ := hx
    have hshape : FRAME_START :: ([0x48] ++ [b]) = FRAME_START :: 0x48 :: b :: [] := rfl
    rw [hshape, frameComplete_hCmd]
    split
    · simpa using Ne.symm hthird
    · rename_i hzero
      simpa using hc (by omega)
  · have hxy : x = 0x48 ∧ y = c ∧ pre ++ [b] <+: ct := by simpa [and_assoc] using hpre
    obtain ⟨rfl, rfl, hpre'⟩ := hxy
    exact hct pre b hpre'

end Nivona
