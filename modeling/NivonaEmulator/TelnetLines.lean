import NivonaEmulator.Lib.CheckedBuffer
import NivonaEmulator.Lib.LineBuffer
import Mathlib.Data.List.DropRight

/-!
# Lines of a telnet client

`client_task` receives one byte at a time, skips the two bytes after an IAC,
collects lines in a buffer of 128 bytes and hands each to `exec_line`, which strips
it and runs it.  Every access of the buffer is checked here.  No stream of bytes
makes one fail, and what is run are the lines of the stream, cut to 127 bytes.
-/

namespace Nivona

open CheckedBuffer

/-- `sizeof(buf)` of `client_task`. -/
def CLIENT_BUF_BYTES : ℕ := 128

def TELNET_IAC : UInt8 := 0xFF

def isEol (c : UInt8) : Bool := c == 10 || c == 13

/-- What `exec_line` strips from the end of a line. -/
def isTrailing (c : UInt8) : Bool := c == 13 || c == 10 || c == 32

/-- What `exec_line` does with a line: the prompt alone, or the command and then the
prompt. -/
inductive LineEffect
  | prompt
  | run (line : List UInt8)
  deriving DecidableEq, Repr

/-! ## The code on its buffer -/

/-- `strlen`, from index `i` on. -/
def strlenFrom {n : ℕ} (buf : Vector UInt8 n) (i : ℕ) : ℕ → Option ℕ
  | 0 => none
  | fuel + 1 => do
      let c ← load buf i
      if c = 0 then some i else strlenFrom buf (i + 1) fuel

/-- The loop that strips a line of `n` bytes; the buffer and the bytes left. -/
def stripLine {m : ℕ} (buf : Vector UInt8 m) : ℕ → Option (Vector UInt8 m × ℕ)
  | 0 => some (buf, 0)
  | n + 1 => do
      let c ← load buf n
      if isTrailing c then do
        let buf ← store buf n 0
        stripLine buf n
      else some (buf, n + 1)

/-- Strip the line in the buffer and run what is left of it. -/
def execLine {m : ℕ} (buf : Vector UInt8 m) : Option (Vector UInt8 m × LineEffect) := do
  let n ← strlenFrom buf 0 (m + 1)
  let (buf, n) ← stripLine buf n
  if n = 0 then some (buf, .prompt)
  else do
    let line ← slice buf 0 n
    some (buf, .run line)

/-- The variables of the loop of `client_task`. -/
structure ClientLoop where
  buf : Vector UInt8 CLIENT_BUF_BYTES
  pos : ℕ
  /-- results of `recv` that the loop still drops -/
  skip : ℕ
  /-- out of the loop -/
  ended : Bool

/-- The loop before the first byte; nothing is known about the buffer. -/
def ClientLoop.start (buf : Vector UInt8 CLIENT_BUF_BYTES) : ClientLoop :=
  { buf := buf, pos := 0, skip := 0, ended := false }

/-- One result of `recv`; `none` is an error or the end of the stream. -/
def clientRecv (s : ClientLoop) (r : Option UInt8) : Option (ClientLoop × Option LineEffect) :=
  if s.ended then some (s, none)
  else if 0 < s.skip then some ({ s with skip := s.skip - 1 }, none)
  else match r with
    | none => some ({ s with ended := true }, none)
    | some c =>
        if c = TELNET_IAC then some ({ s with skip := 2 }, none)
        else if isEol c then do
          let buf ← store s.buf s.pos 0
          let (buf, effect) ← execLine buf
          some ({ s with buf := buf, pos := 0 }, some effect)
        else if s.pos + 1 < CLIENT_BUF_BYTES then do
          let buf ← store s.buf s.pos c
          some ({ s with buf := buf, pos := s.pos + 1 }, none)
        else some (s, none)

/-- What the loop makes of the results of its `recv` calls. -/
def clientRun (s : ClientLoop) : List (Option UInt8) → Option (List LineEffect)
  | [] => some []
  | r :: rest => do
      let (s, effect) ← clientRecv s r
      let effects ← clientRun s rest
      some (effect.toList ++ effects)

/-! ## The lines of a stream -/

/-- The bytes that are not part of an IAC sequence, up to the end of the stream;
`skip` results are dropped first. -/
def clientBytes : ℕ → List (Option UInt8) → List UInt8
  | _, [] => []
  | skip + 1, _ :: rest => clientBytes skip rest
  | 0, none :: _ => []
  | 0, some c :: rest => if c = TELNET_IAC then clientBytes 2 rest else c :: clientBytes 0 rest

/-- The command of a line: up to the first NUL, without the blanks at its end. -/
def cleanLine (line : List UInt8) : List UInt8 :=
  (line.takeWhile (· ≠ 0)).rdropWhile isTrailing

def lineEffect (line : List UInt8) : LineEffect :=
  if cleanLine line = [] then .prompt else .run (cleanLine line)

/-! ## One line -/

section

variable {m : ℕ} {buf : Vector UInt8 m}

/-- `strlen` stops at the first NUL when there is one. -/
theorem strlenFrom_eq {k : ℕ} (hk : k < m) (hzero : buf[k] = 0) (i fuel : ℕ) (hi : i ≤ k)
    (hfuel : k < i + fuel) :
    strlenFrom buf i fuel =
      some (i + ((buf.toList.drop i).takeWhile (· ≠ 0)).length) := by
  induction fuel generalizing i with
  | zero => omega
  | succ fuel ih =>
      have him : i < m := by omega
      have hlen : i < buf.toList.length := by simpa using him
      have hdrop : buf.toList.drop i = buf[i] :: buf.toList.drop (i + 1) := by
        rw [List.drop_eq_getElem_cons hlen]
        simp
      rw [strlenFrom, load_eq him, Option.bind_eq_bind, Option.bind_some, hdrop]
      by_cases hc : buf[i] = 0
      · rw [if_pos hc, List.takeWhile_cons_of_neg (by simp [hc])]
        rfl
      · have hne : i ≠ k := by
          rintro rfl
          exact hc hzero
        rw [if_neg hc, ih (i + 1) (by omega) (by omega), List.takeWhile_cons_of_pos (by simp [hc]),
          List.length_cons]
        congr 1
        omega

/-- Stripping leaves the line without the blanks at its end. -/
theorem stripLine_eq {n : ℕ} (hn : n ≤ m) :
    ∃ buf', stripLine buf n =
        some (buf', ((buf.toList.take n).rdropWhile isTrailing).length) ∧
      buf'.toList.take ((buf.toList.take n).rdropWhile isTrailing).length =
        (buf.toList.take n).rdropWhile isTrailing := by
  induction n generalizing buf with
  | zero => exact ⟨buf, by simp [stripLine], by simp⟩
  | succ n ih =>
      have hnm : n < m := hn
      have hlen : n < buf.toList.length := by simpa using hnm
      have htake : buf.toList.take (n + 1) = buf.toList.take n ++ [buf[n]] := by
        rw [List.take_add_one, List.getElem?_eq_getElem hlen]
        simp
      rw [stripLine, load_eq hnm, Option.bind_eq_bind, Option.bind_some, htake]
      rcases hc : isTrailing buf[n] with _ | _
      · have hkeep : (buf.toList.take n ++ [buf[n]]).rdropWhile isTrailing =
            buf.toList.take (n + 1) := by
          rw [List.rdropWhile_concat_neg _ _ _ (by simp [hc]), htake]
        have hlength : (buf.toList.take (n + 1)).length = n + 1 := by
          rw [List.length_take]
          exact Nat.min_eq_left hlen
        rw [hkeep, hlength]
        exact ⟨buf, rfl, rfl⟩
      · have hsame : (buf.set n 0).toList.take n = buf.toList.take n := by
          rw [Vector.toList_set, List.take_set_of_le (Nat.le_refl n)]
        obtain ⟨buf', hstrip, hfirst⟩ := @ih (buf.set n 0) (Nat.le_of_lt hnm)
        rw [hsame] at hstrip hfirst
        rw [List.rdropWhile_concat_pos _ _ _ hc]
        refine ⟨buf', ?_, hfirst⟩
        rw [if_pos rfl, store_eq hnm]
        exact hstrip

theorem takeWhile_append_zero (line rest : List UInt8) :
    (line ++ 0 :: rest).takeWhile (· ≠ 0) = line.takeWhile (· ≠ 0) := by
  induction line with
  | nil => rfl
  | cons c line ih =>
      by_cases hc : c = 0
      · simp [hc]
      · simpa [hc] using ih

/-- A line in the buffer, ended by a NUL, is stripped and run. -/
theorem execLine_eq {line rest : List UInt8} (hbuf : buf.toList = line ++ 0 :: rest) :
    ∃ buf', execLine buf = some (buf', lineEffect line) := by
  have hm : m = line.length + 1 + rest.length := by
    have hlength := congrArg List.length hbuf
    simp only [Vector.length_toList, List.length_append, List.length_cons] at hlength
    omega
  have hpos : line.length < m := by omega
  have hzero : buf[line.length] = 0 := by
    have hget : buf.toList[line.length]? = some 0 := by simp [hbuf]
    simpa [hpos] using hget
  have hstrlen := strlenFrom_eq hpos hzero 0 (m + 1) (Nat.zero_le _) (by omega)
  rw [List.drop_zero, Nat.zero_add, hbuf, takeWhile_append_zero] at hstrlen
  have hfirst : line.takeWhile (· ≠ 0) <+: line := List.takeWhile_prefix _
  have htake : buf.toList.take (line.takeWhile (· ≠ 0)).length = line.takeWhile (· ≠ 0) := by
    rw [hbuf]
    exact (List.prefix_iff_eq_take.mp (hfirst.trans (List.prefix_append line _))).symm
  have hle : (line.takeWhile (· ≠ 0)).length ≤ m :=
    Nat.le_trans hfirst.length_le (Nat.le_of_lt hpos)
  obtain ⟨buf', hstrip, hclean⟩ := @stripLine_eq m buf _ hle
  rw [htake] at hstrip hclean
  have hcleanLine : (line.takeWhile (· ≠ 0)).rdropWhile isTrailing = cleanLine line := rfl
  rw [hcleanLine] at hstrip hclean
  have hcleanLe : 0 + (cleanLine line).length ≤ m := by
    have hshort := (List.rdropWhile_prefix isTrailing (line.takeWhile (· ≠ 0))).length_le
    rw [hcleanLine] at hshort
    omega
  refine ⟨buf', ?_⟩
  rw [execLine, hstrlen]
  simp only [Option.bind_eq_bind, Option.bind_some, hstrip, List.length_eq_zero_iff]
  by_cases hempty : cleanLine line = []
  · rw [if_pos hempty, lineEffect, if_pos hempty]
  · rw [if_neg hempty, slice_eq hcleanLe, List.drop_zero, hclean, lineEffect, if_neg hempty]
    rfl

end

/-! ## The loop -/

/-- The line that the loop has collected. -/
structure ClientLoop.Holds (s : ClientLoop) (line : List UInt8) : Prop where
  pos : s.pos = line.length
  take : s.buf.toList.take s.pos = line
  fits : line.length < CLIENT_BUF_BYTES

theorem ClientLoop.holds_start (buf : Vector UInt8 CLIENT_BUF_BYTES) :
    (ClientLoop.start buf).Holds [] :=
  ⟨rfl, List.take_zero, by decide⟩

section

variable {s : ClientLoop} {line : List UInt8} {c : UInt8}

/-- At the end of a line the collected one is run. -/
theorem clientRecv_eol (h : s.Holds line) (hrun : s.ended = false) (hskip : s.skip = 0)
    (hc : isEol c = true) :
    ∃ buf', clientRecv s (some c) =
      some ({ s with buf := buf', pos := 0 }, some (lineEffect line)) := by
  have hiac : c ≠ TELNET_IAC := by
    rintro rfl
    exact absurd hc (by decide)
  have hpos : s.pos < CLIENT_BUF_BYTES := h.pos ▸ h.fits
  have hlen : s.pos < s.buf.toList.length := by simpa using hpos
  have hbuf : (s.buf.set s.pos 0).toList = line ++ 0 :: s.buf.toList.drop (s.pos + 1) := by
    rw [Vector.toList_set, List.set_eq_take_append_cons_drop, if_pos hlen, h.take]
  obtain ⟨buf', hexec⟩ := execLine_eq hbuf
  refine ⟨buf', ?_⟩
  simp [clientRecv, hrun, hskip, hiac, hc, store_eq hpos, hexec]

/-- Another byte goes into the line while there is room. -/
theorem clientRecv_byte (h : s.Holds line) (hrun : s.ended = false) (hskip : s.skip = 0)
    (hiac : c ≠ TELNET_IAC) (hc : isEol c = false) :
    ∃ s', clientRecv s (some c) = some (s', none) ∧ s'.ended = false ∧ s'.skip = 0 ∧
      s'.Holds (LineBuffer.feed isEol 127 line c).1 := by
  have hpos : s.pos < CLIENT_BUF_BYTES := h.pos ▸ h.fits
  have hlen : s.pos < s.buf.toList.length := by simpa using hpos
  by_cases hroom : s.pos + 1 < CLIENT_BUF_BYTES
  · have hshort : line.length < 127 := by
      have hpos' := h.pos
      simp only [CLIENT_BUF_BYTES] at hroom
      omega
    have hfeed : (LineBuffer.feed isEol 127 line c).1 = line ++ [c] := by
      simp [LineBuffer.feed, hc, hshort]
    refine ⟨{ s with buf := s.buf.set s.pos c, pos := s.pos + 1 }, ?_, hrun, hskip, ?_⟩
    · simp [clientRecv, hrun, hskip, hiac, hc, hroom, store_eq hpos]
    · rw [hfeed]
      refine ⟨by simp [h.pos], ?_, by simpa [h.pos] using hroom⟩
      rw [Vector.toList_set, take_set_last c hlen, h.take]
  · have hfull : ¬line.length < 127 := by
      have hpos' := h.pos
      simp only [CLIENT_BUF_BYTES] at hroom
      omega
    have hfeed : (LineBuffer.feed isEol 127 line c).1 = line := by
      simp [LineBuffer.feed, hc, hfull]
    refine ⟨s, ?_, hrun, hskip, ?_⟩
    · simp [clientRecv, hrun, hskip, hiac, hc, hroom]
    · rw [hfeed]
      exact h

end

/-- Out of the loop nothing is run any more. -/
theorem clientRun_ended {s : ClientLoop} (hended : s.ended = true)
    (results : List (Option UInt8)) : clientRun s results = some [] := by
  induction results with
  | nil => rfl
  | cons r rest ih => simp [clientRun, clientRecv, hended, ih]

/-- From any point of the loop on, the finished lines of the stream are run. -/
theorem clientRun_from {s : ClientLoop} {line : List UInt8} (h : s.Holds line)
    (hrun : s.ended = false) (results : List (Option UInt8)) :
    clientRun s results =
      some ((LineBuffer.lines isEol 127 line (clientBytes s.skip results)).map lineEffect) := by
  induction results generalizing s line with
  | nil => simp [clientRun, clientBytes, LineBuffer.lines]
  | cons r rest ih =>
      rcases hskip : s.skip with _ | skip
      · rcases r with _ | c
        · have hend := @clientRun_ended { s with ended := true } rfl rest
          have hstep : clientRecv s none = some ({ s with ended := true }, none) := by
            simp [clientRecv, hrun, hskip]
          simp [clientRun, hstep, hend, clientBytes, LineBuffer.lines]
        · by_cases hiac : c = TELNET_IAC
          · subst hiac
            have hstep : clientRecv s (some TELNET_IAC) = some ({ s with skip := 2 }, none) := by
              simp [clientRecv, hrun, hskip]
            have hrest := @ih { s with skip := 2 } line ⟨h.pos, h.take, h.fits⟩ hrun
            simp [clientRun, hstep, hrest, clientBytes]
          · rcases hc : isEol c with _ | _
            · obtain ⟨s', hstep, hrun', hskip', hholds⟩ :=
                clientRecv_byte h hrun hskip hiac hc
              have hrest := ih hholds hrun'
              rw [hskip'] at hrest
              have hnone : (LineBuffer.feed isEol 127 line c).2 = none := by
                rw [LineBuffer.feed, if_neg (by simp [hc])]
                split <;> rfl
              simp [clientRun, hstep, hrest, clientBytes, hiac, LineBuffer.lines, hnone]
            · obtain ⟨buf', hstep⟩ := clientRecv_eol h hrun hskip hc
              have hrest := @ih { s with buf := buf', pos := 0 } []
                ⟨rfl, List.take_zero, by decide⟩ hrun
              simp only [hskip] at hrest hstep
              simp [clientRun, hstep, hrest, clientBytes, hiac, LineBuffer.lines,
                LineBuffer.feed_end hc]
      · have hstep : clientRecv s r = some ({ s with skip := skip }, none) := by
          simp [clientRecv, hrun, hskip]
        have hrest := @ih { s with skip := skip } line ⟨h.pos, h.take, h.fits⟩ hrun
        simp [clientRun, hstep, hrest, clientBytes]

/-- No stream of bytes, and nothing left in the buffer, makes the loop or `exec_line`
leave the buffer; what is run are the pieces of the stream between its line ends, cut
to 127 bytes. -/
theorem clientRun_eq (buf : Vector UInt8 CLIENT_BUF_BYTES) (results : List (Option UInt8)) :
    clientRun (.start buf) results =
      some ((((clientBytes 0 results).splitOnP isEol).dropLast.map (List.take 127)).map
        lineEffect) := by
  rw [clientRun_from (ClientLoop.holds_start buf) rfl, LineBuffer.lines_nil]
  rfl

/-! ## What a client sends -/

/-- A byte of text, or a telnet sequence of three bytes. -/
inductive Sent
  | text (c : UInt8) (notIac : c ≠ TELNET_IAC)
  | negotiate (verb option : UInt8)
  deriving DecidableEq, Repr

def Sent.bytes : Sent → List UInt8
  | .text c _ => [c]
  | .negotiate verb option => [TELNET_IAC, verb, option]

def Sent.text? : Sent → Option UInt8
  | .text c _ => some c
  | .negotiate _ _ => none

/-- A command as it is typed, with the line ends behind it. -/
structure TypedLine where
  command : List UInt8
  ends : List UInt8
  nonempty : command ≠ []
  fits : command.length < CLIENT_BUF_BYTES
  plain : ∀ c ∈ command, c ≠ 0 ∧ isEol c = false
  closed : isTrailing (command.getLast nonempty) = false
  ended : ends ≠ []
  endsEol : ∀ c ∈ ends, isEol c = true

def TypedLine.bytes (typed : TypedLine) : List UInt8 :=
  typed.command ++ typed.ends

/-- The lines that are handed to the console, without the bare prompts. -/
def LineEffect.command? : LineEffect → Option (List UInt8)
  | .prompt => none
  | .run line => some line

/-- Telnet sequences leave no trace, wherever they stand in the text. -/
theorem clientBytes_sent (sent : List Sent) :
    clientBytes 0 ((sent.flatMap Sent.bytes).map some) = sent.filterMap Sent.text? := by
  induction sent with
  | nil => rfl
  | cons item sent ih =>
      rcases item with ⟨c, hc⟩ | ⟨verb, option⟩
      · simp [Sent.bytes, Sent.text?, clientBytes, hc, ih]
      · have hnone : (Sent.negotiate verb option).text? = none := rfl
        rw [List.filterMap_cons_none hnone, ← ih]
        simp [Sent.bytes, clientBytes]

theorem TypedLine.cleanLine_eq (typed : TypedLine) :
    cleanLine typed.command = typed.command := by
  have hzero : typed.command.takeWhile (· ≠ 0) = typed.command := by
    rw [List.takeWhile_eq_self_iff]
    intro c hc
    simpa using (typed.plain c hc).1
  rw [cleanLine, hzero, List.rdropWhile_eq_self_iff]
  intro hne
  simp [typed.closed]

/-- Commands that fit the buffer are run one by one and as they were typed, whatever
ends their lines and whatever telnet sequences stand between the bytes. -/
theorem clientRun_sent (buf : Vector UInt8 CLIENT_BUF_BYTES) (sent : List Sent)
    (typed : List TypedLine)
    (htext : sent.filterMap Sent.text? = typed.flatMap TypedLine.bytes) :
    (clientRun (.start buf) ((sent.flatMap Sent.bytes).map some)).map
        (List.filterMap LineEffect.command?) =
      some (typed.map TypedLine.command) := by
  have hpieces : ∀ p ∈ typed.map fun t => (t.command, t.ends),
      (∀ c ∈ p.1, isEol c = false) ∧ p.1.length ≤ 127 ∧ p.2 ≠ [] ∧
        ∀ c ∈ p.2, isEol c = true := by
    intro p hp
    obtain ⟨t, _, rfl⟩ := List.mem_map.mp hp
    exact ⟨fun c hc => (t.plain c hc).2, Nat.le_of_lt_succ t.fits, t.ended, t.endsEol⟩
  have hprompt : (lineEffect []).command? = none := rfl
  have hrun (t : TypedLine) : (lineEffect t.command).command? = some t.command := by
    rw [lineEffect, t.cleanLine_eq, if_neg t.nonempty]
    rfl
  have hlines := LineBuffer.filterMap_lines
    (f := fun line => (lineEffect line).command?) hprompt hpieces
  rw [List.flatMap_map, List.filterMap_map] at hlines
  rw [clientRun_from (ClientLoop.holds_start buf) rfl, Option.map_some, List.filterMap_map]
  have hstart : (ClientLoop.start buf).skip = 0 := rfl
  rw [hstart, clientBytes_sent, htext]
  refine congrArg some (hlines.trans ?_)
  simp [hrun]

/-- A telnet sequence in the middle of `hi`, and the line end of a telnet client. -/
theorem clientRun_sent_hi :
    (clientRun (.start (Vector.replicate CLIENT_BUF_BYTES 0xA5))
        (([Sent.text 104 (by decide), .negotiate 251 10, .text 105 (by decide),
          .text 13 (by decide), .text 10 (by decide)].flatMap Sent.bytes).map some)).map
        (List.filterMap LineEffect.command?) =
      some [[104, 105]] :=
  clientRun_sent _ _
    [{ command := [104, 105], ends := [13, 10], nonempty := by decide, fits := by decide
       plain := by simp [isEol], closed := by decide, ended := by decide
       endsEol := by simp [isEol] }]
    (by decide)

end Nivona
