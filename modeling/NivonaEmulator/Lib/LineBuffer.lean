import Mathlib.Data.List.Basic

/-!
# Lines of bounded length

Symbols are collected up to an end symbol; what goes beyond the capacity of the
line is dropped.  The finished lines are the pieces between the end symbols, each
cut to the capacity.
-/

namespace LineBuffer

variable {α β : Type*} (isEnd : α → Bool) (cap : ℕ)

/-- Take one symbol: the line collected so far, and the line it finishes. -/
def feed (line : List α) (c : α) : List α × Option (List α) :=
  if isEnd c then ([], some line)
  else if line.length < cap then (line ++ [c], none)
  else (line, none)

/-- The lines that an input finishes, from the line collected so far on. -/
def lines : List α → List α → List (List α)
  | _, [] => []
  | line, c :: rest =>
      (feed isEnd cap line c).2.toList ++ lines (feed isEnd cap line c).1 rest

variable {isEnd cap}

theorem feed_end {c : α} (h : isEnd c = true) (line : List α) :
    feed isEnd cap line c = ([], some line) := by
  rw [feed, if_pos h]

/-- A line that is cut keeps its beginning. -/
theorem feed_take {c : α} (h : isEnd c = false) (line : List α) :
    feed isEnd cap (line.take cap) c = ((line ++ [c]).take cap, none) := by
  have hc : ¬isEnd c = true := by simp [h]
  rw [feed, if_neg hc]
  by_cases hlt : line.length < cap
  · have hle : (line ++ [c]).length ≤ cap := by simpa using Nat.succ_le_of_lt hlt
    rw [List.take_of_length_le (Nat.le_of_lt hlt), if_pos hlt, List.take_of_length_le hle]
  · have hge : cap ≤ line.length := Nat.not_lt.mp hlt
    have hfull : ¬(line.take cap).length < cap := by
      rw [List.length_take]
      omega
    rw [if_neg hfull, List.take_append_of_le_length hge]

/-- The finished lines are the pieces between the end symbols, cut to the capacity. -/
theorem lines_eq (line xs : List α) :
    lines isEnd cap (line.take cap) xs =
      ((xs.splitOnP isEnd).modifyHead (line ++ ·)).dropLast.map (List.take cap) := by
  induction xs generalizing line with
  | nil => simp [lines]
  | cons c rest ih =>
      rw [lines, List.splitOnP_cons_eq_if_modifyHead]
      rcases hc : isEnd c with _ | _
      · rw [feed_take hc, ih]
        simp [List.modifyHead_modifyHead, Function.comp_def]
      · have hempty : ([] : List α).take cap = [] := List.take_nil
        have hrest := ih []
        rw [hempty] at hrest
        rw [feed_end hc, if_pos rfl, hrest]
        obtain ⟨first, others, hsplit⟩ :=
          List.exists_cons_of_ne_nil (List.splitOnP_ne_nil isEnd rest)
        simp [hsplit]

theorem lines_nil (xs : List α) :
    lines isEnd cap [] xs = (xs.splitOnP isEnd).dropLast.map (List.take cap) := by
  have h : lines isEnd cap (([] : List α).take cap) xs = _ := lines_eq [] xs
  have hhead : (xs.splitOnP isEnd).modifyHead ([] ++ ·) = xs.splitOnP isEnd := by
    rcases xs.splitOnP isEnd with _ | ⟨line, others⟩
    · rfl
    · rfl
  rw [List.take_nil, hhead] at h
  exact h

/-- A line that fits is finished as it is. -/
theorem lines_append {line : List α} (hline : ∀ c ∈ line, isEnd c = false)
    (hcap : line.length ≤ cap) {c : α} (hc : isEnd c = true) (rest : List α) :
    lines isEnd cap [] (line ++ c :: rest) = line :: lines isEnd cap [] rest := by
  have hne : rest.splitOnP isEnd ≠ [] := List.splitOnP_ne_nil isEnd rest
  rw [lines_nil, lines_nil, List.splitOnP_append_cons_of_forall_mem hline c hc,
    List.dropLast_cons_of_ne_nil hne, List.map_cons, List.take_of_length_le hcap]

/-- Further end symbols finish empty lines. -/
theorem lines_ends {ends : List α} (hends : ∀ c ∈ ends, isEnd c = true) (rest : List α) :
    lines isEnd cap [] (ends ++ rest) =
      List.replicate ends.length [] ++ lines isEnd cap [] rest := by
  induction ends with
  | nil => rfl
  | cons c ends ih =>
      have hc : isEnd c = true := hends c List.mem_cons_self
      rw [List.cons_append, lines, feed_end hc]
      simp [ih fun d hd => hends d (List.mem_cons_of_mem c hd), List.replicate_succ]

/-- Lines that fit, each with end symbols of its own behind it, come out one by one
when empty lines do not count. -/
theorem filterMap_lines {f : List α → Option β} (hnil : f [] = none)
    {pieces : List (List α × List α)}
    (h : ∀ p ∈ pieces, (∀ c ∈ p.1, isEnd c = false) ∧ p.1.length ≤ cap ∧ p.2 ≠ [] ∧
      ∀ c ∈ p.2, isEnd c = true) :
    (lines isEnd cap [] (pieces.flatMap fun p => p.1 ++ p.2)).filterMap f =
      pieces.filterMap fun p => f p.1 := by
  induction pieces with
  | nil => rfl
  | cons p pieces ih =>
      obtain ⟨hline, hcap, hne, hends⟩ := h p List.mem_cons_self
      obtain ⟨c, ends, hp⟩ := List.exists_cons_of_ne_nil hne
      have hc : isEnd c = true := hends c (hp ▸ List.mem_cons_self)
      have hrest : ∀ d ∈ ends, isEnd d = true :=
        fun d hd => hends d (hp ▸ List.mem_cons_of_mem c hd)
      have hblank : (List.replicate ends.length ([] : List α)).filterMap f = [] := by
        rw [List.filterMap_eq_nil_iff]
        intro line hmem
        rw [List.eq_of_mem_replicate hmem, hnil]
      have htail := ih fun q hq => h q (List.mem_cons_of_mem p hq)
      rw [List.flatMap_cons, hp, List.append_assoc, List.cons_append,
        lines_append hline hcap hc, lines_ends hrest, List.filterMap_cons,
        List.filterMap_append, hblank, List.nil_append, htail, List.filterMap_cons]

end LineBuffer
