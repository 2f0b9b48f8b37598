import Mathlib.Data.List.Basic
import Mathlib.Data.Fintype.Basic
import Mathlib.Logic.Function.Basic

/-!
# Interleaved senders

Each task has a queue of pieces to send, and a schedule names the task whose
next piece goes out.  The queues are made of frames, each cut into pieces.  The
frames of an interleaving stay in one piece for every schedule exactly when no
task has a frame of several pieces while another task sends anything.
-/

namespace Interleaving

variable {ι β : Type*} [DecidableEq ι]

/-! ## Merging queues -/

/-- What the tasks of a schedule send, one piece at a time; a task with an
empty queue sends nothing. -/
def merge (queues : ι → List β) : List ι → List β
  | [] => []
  | i :: schedule =>
      match queues i with
      | [] => merge queues schedule
      | b :: rest => b :: merge (Function.update queues i rest) schedule

/-- What the queues still hold after a schedule. -/
def leftover (queues : ι → List β) : List ι → ι → List β
  | [] => queues
  | i :: schedule => leftover (Function.update queues i (queues i).tail) schedule

theorem merge_append (queues : ι → List β) (s t : List ι) :
    merge queues (s ++ t) = merge queues s ++ merge (leftover queues s) t := by
  induction s generalizing queues with
  | nil => rfl
  | cons i s ih =>
      rw [List.cons_append, merge, merge, leftover]
      cases hq : queues i with
      | nil =>
          have hsame : Function.update queues i ([] : List β).tail = queues := by
            rw [List.tail_nil, ← hq, Function.update_eq_self]
          simp only [ih, hsame]
      | cons b rest => simp only [ih, List.tail_cons, List.cons_append]

theorem leftover_append (queues : ι → List β) (s t : List ι) :
    leftover queues (s ++ t) = leftover (leftover queues s) t := by
  induction s generalizing queues with
  | nil => rfl
  | cons i s ih => simp only [List.cons_append, leftover, ih]

/-- Every turn of a task takes one piece off its queue. -/
theorem leftover_eq_drop (queues : ι → List β) (s : List ι) (i : ι) :
    leftover queues s i = (queues i).drop (s.count i) := by
  induction s generalizing queues with
  | nil => simp [leftover]
  | cons j s ih =>
      rw [leftover, ih]
      by_cases hij : j = i
      · subst hij
        rw [Function.update_self, List.count_cons_self, ← List.drop_one, List.drop_drop,
          Nat.add_comm]
      · rw [Function.update_of_ne (Ne.symm hij), List.count_cons_of_ne hij]

/-- A task that has the schedule to itself sends its queue in order. -/
theorem merge_replicate (queues : ι → List β) (n : ℕ) (i : ι) :
    merge queues (List.replicate n i) = (queues i).take n := by
  induction n generalizing queues with
  | zero => simp [merge]
  | succ n ih =>
      rw [List.replicate_succ, merge]
      cases hq : queues i with
      | nil =>
          simp only [ih, hq]
          simp
      | cons b rest => simp [ih]

/-- The pieces of one task keep their order. -/
theorem filter_merge {queues : ι → List β} {owner : β → ι}
    (howner : ∀ i, ∀ b ∈ queues i, owner b = i) (s : List ι) (i : ι) :
    (merge queues s).filter (fun b => owner b = i) ++ leftover queues s i = queues i := by
  induction s generalizing queues with
  | nil => simp [merge, leftover]
  | cons j s ih =>
      rw [merge, leftover]
      cases hq : queues j with
      | nil =>
          have hsame : Function.update queues j ([] : List β).tail = queues := by
            rw [List.tail_nil, ← hq, Function.update_eq_self]
          simp only [hsame]
          exact ih howner
      | cons b rest =>
          have howner' : ∀ k, ∀ x ∈ Function.update queues j rest k, owner x = k := by
            intro k x hx
            by_cases hk : k = j
            · subst hk
              rw [Function.update_self] at hx
              exact howner k x (by rw [hq]; exact List.mem_cons_of_mem b hx)
            · rw [Function.update_of_ne hk] at hx
              exact howner k x hx
          have hb : owner b = j := howner j b (by rw [hq]; exact List.mem_cons_self)
          have hrest := ih howner'
          simp only [List.tail_cons]
          by_cases hi : j = i
          · subst hi
            rw [List.filter_cons_of_pos (by simpa using hb), List.cons_append, hrest,
              Function.update_self, hq]
          · rw [List.filter_cons_of_neg (by simpa [hb] using hi), hrest,
              Function.update_of_ne (Ne.symm hi)]

/-- Every piece comes from the queue of its task. -/
theorem mem_of_mem_merge {queues : ι → List β} {owner : β → ι}
    (howner : ∀ i, ∀ b ∈ queues i, owner b = i) {s : List ι} {b : β}
    (h : b ∈ merge queues s) : b ∈ queues (owner b) := by
  rw [← filter_merge howner s (owner b)]
  exact List.mem_append_left _ (List.mem_filter.mpr ⟨h, by simp⟩)

/-- All pieces are sent once every task has had enough turns. -/
theorem exists_drain [Fintype ι] (queues : ι → List β) : ∃ s, ∀ i, leftover queues s i = [] := by
  have hturns (tasks : List ι) : ∃ s : List ι, ∀ i ∈ tasks, (queues i).length ≤ s.count i := by
    induction tasks with
    | nil => exact ⟨[], by simp⟩
    | cons j tasks ih =>
        obtain ⟨s, hs⟩ := ih
        refine ⟨List.replicate (queues j).length j ++ s, ?_⟩
        intro i hi
        rw [List.count_append]
        rcases List.mem_cons.mp hi with rfl | hi
        · rw [List.count_replicate_self]
          exact Nat.le_add_right _ _
        · exact (hs i hi).trans (Nat.le_add_left _ _)
  obtain ⟨s, hs⟩ := hturns Finset.univ.toList
  refine ⟨s, ?_⟩
  intro i
  rw [leftover_eq_drop]
  exact List.drop_eq_nil_of_le (hs i (by simp))

/-! ## Frames -/

/-- A piece of a frame, with its number in the frame. -/
structure Piece (φ α : Type*) where
  frame : φ
  index : ℕ
  data : α

section

variable {φ α : Type*} (content : φ → List α)

/-- The pieces of a frame in order. -/
def pieces (f : φ) : List (Piece φ α) :=
  (content f).mapIdx fun n a => ⟨f, n, a⟩

/-- A concatenation of complete frames. -/
def Contiguous (t : List (Piece φ α)) : Prop :=
  ∃ frames : List φ, t = frames.flatMap (pieces content)

variable {content}

theorem length_pieces (f : φ) : (pieces content f).length = (content f).length := by
  simp [pieces]

theorem frame_of_mem_pieces {f : φ} {p : Piece φ α} (h : p ∈ pieces content f) :
    p.frame = f := by
  obtain ⟨n, -, rfl⟩ := List.mem_mapIdx.mp h
  rfl

/-- The `n`-th piece of a frame says so. -/
theorem index_of_getElem?_pieces {f : φ} {n : ℕ} {p : Piece φ α}
    (h : (pieces content f)[n]? = some p) : p.index = n := by
  rw [pieces, List.getElem?_mapIdx] at h
  obtain ⟨a, -, rfl⟩ := Option.map_eq_some_iff.mp h
  rfl

/-- A frame of one piece. -/
theorem pieces_of_mem {f : φ} {p : Piece φ α} (h : p ∈ pieces content f)
    (hone : (content f).length ≤ 1) : pieces content f = [p] := by
  rw [← length_pieces] at hone
  rcases hp : pieces content f with _ | ⟨q, _ | ⟨r, rest⟩⟩
  · simp [hp] at h
  · rw [hp] at h
    rw [List.mem_singleton.mp h]
  · simp [hp] at hone

/-- In a concatenation of frames a piece that is not the last of its frame is
followed by a piece of the same frame. -/
theorem Contiguous.frame_next {t before after : List (Piece φ α)} {x y : Piece φ α}
    (h : Contiguous content t) (ht : t = before ++ x :: y :: after)
    (hx : x.index + 1 < (content x.frame).length) : y.frame = x.frame := by
  obtain ⟨frames, rfl⟩ := h
  induction frames generalizing before with
  | nil => simp at ht
  | cons f frames ih =>
      rw [List.flatMap_cons] at ht
      by_cases hlen : (pieces content f).length ≤ before.length
      · -- both pieces come after this frame
        obtain ⟨before', rfl⟩ : ∃ before', before = pieces content f ++ before' := by
          rw [List.append_eq_append_iff] at ht
          rcases ht with ⟨a, rfl, -⟩ | ⟨a, ha, -⟩
          · exact ⟨a, rfl⟩
          · have ha' : a = [] := by
              rw [ha, List.length_append] at hlen
              exact List.length_eq_zero_iff.mp (by omega)
            exact ⟨[], by rw [ha, ha', List.append_nil, List.append_nil]⟩
        rw [List.append_assoc, List.append_cancel_left_eq] at ht
        exact ih ht
      · -- the first piece is in this frame, and so is the next one
        have hxf : (pieces content f)[before.length]? = some x := by
          have := congrArg (·[before.length]?) ht
          simpa [List.getElem?_append_left (Nat.lt_of_not_le hlen)] using this
        have hframe := frame_of_mem_pieces (List.mem_of_getElem? hxf)
        have hindex := index_of_getElem?_pieces hxf
        rw [hindex, hframe, ← length_pieces] at hx
        have hyf : (pieces content f)[before.length + 1]? = some y := by
          have := congrArg (·[before.length + 1]?) ht
          simpa [List.getElem?_append_left hx, List.getElem?_append_right] using this
        rw [hframe, frame_of_mem_pieces (List.mem_of_getElem? hyf)]

end

/-! ## Senders -/

section

variable {α : Type*} (sends : ι → List (List α))

/-- The pieces of the `n`-th frame of a task. -/
def frameContent (f : ι × ℕ) : List α := (sends f.1).getD f.2 []

/-- All pieces of a task, frame after frame. -/
def queue (i : ι) : List (Piece (ι × ℕ) α) :=
  (List.range (sends i).length).flatMap fun n => pieces (frameContent sends) (i, n)

variable {sends}

omit [DecidableEq ι] in
theorem mem_queue {i : ι} {p : Piece (ι × ℕ) α} :
    p ∈ queue sends i ↔
      ∃ n < (sends i).length, p ∈ pieces (frameContent sends) (i, n) := by
  simp [queue]

omit [DecidableEq ι] in
/-- The queue carries the content of the frames in order. -/
theorem map_data_queue (i : ι) : (queue sends i).map Piece.data = (sends i).flatten := by
  have hpieces (f : ι × ℕ) :
      (pieces (frameContent sends) f).map Piece.data = frameContent sends f :=
    List.ext_getElem (by simp [pieces]) fun n hn hn' => by simp [pieces]
  have hrange : (List.range (sends i).length).map (fun n => frameContent sends (i, n)) =
      sends i := by
    apply List.ext_getElem (by simp)
    intro n hn hn'
    simp [frameContent, hn']
  rw [queue, List.map_flatMap]
  simp only [hpieces]
  rw [List.flatMap_def, hrange]

omit [DecidableEq ι] in
theorem owner_of_mem_queue {i : ι} {p : Piece (ι × ℕ) α} (h : p ∈ queue sends i) :
    p.frame.1 = i := by
  obtain ⟨n, -, hp⟩ := mem_queue.mp h
  rw [frame_of_mem_pieces hp]

omit [DecidableEq ι] in
/-- Every frame with content starts somewhere in the queue. -/
theorem exists_first_piece {i : ι} {f : List α} (hf : f ∈ sends i) (hne : f ≠ []) :
    ∃ p ∈ queue sends i, p.index = 0 ∧ frameContent sends p.frame = f := by
  obtain ⟨n, hn, rfl⟩ := List.getElem_of_mem hf
  have hcontent : frameContent sends (i, n) = (sends i)[n] := by
    simp [frameContent, hn]
  have hlen : 0 < (frameContent sends (i, n)).length := by
    rw [hcontent]
    exact List.length_pos_iff.mpr hne
  refine ⟨⟨(i, n), 0, (frameContent sends (i, n))[0]⟩, mem_queue.mpr ⟨n, hn, ?_⟩, rfl, hcontent⟩
  exact List.mem_mapIdx.mpr ⟨0, hlen, rfl⟩

omit [DecidableEq ι] in
/-- A task whose frames are all empty has an empty queue. -/
theorem queue_eq_nil {i : ι} (h : ∀ g ∈ sends i, g = []) : queue sends i = [] := by
  apply List.eq_nil_iff_forall_not_mem.mpr
  intro p hp
  obtain ⟨n, hn, hmem⟩ := mem_queue.mp hp
  have hnil : frameContent sends (i, n) = [] := by
    simpa [frameContent, hn] using h _ (List.getElem_mem hn)
  simp [pieces, hnil] at hmem

/-- A schedule under which another task cuts into a frame of several pieces. -/
theorem exists_torn [Fintype ι] {i j : ι} (hij : i ≠ j) {f g : List α} (hf : f ∈ sends i)
    (hlong : 2 ≤ f.length) (hg : g ∈ sends j) (hne : g ≠ []) :
    ∃ s, (∀ k, leftover (queue sends) s k = []) ∧
      ¬Contiguous (frameContent sends) (merge (queue sends) s) := by
  obtain ⟨x, hx, hindex, hcontent⟩ := exists_first_piece hf (by rintro rfl; simp at hlong)
  obtain ⟨before, after, hqueue⟩ := List.append_of_mem hx
  obtain ⟨y, hy, -⟩ := exists_first_piece hg hne
  obtain ⟨z, rest, hz⟩ := List.exists_cons_of_ne_nil (List.ne_nil_of_mem hy)
  -- `i` gets as far as the first piece of its frame, and then `j` has a turn
  obtain ⟨s, hs⟩ := exists_drain
    (leftover (queue sends) (List.replicate (before.length + 1) i ++ [j]))
  refine ⟨List.replicate (before.length + 1) i ++ [j] ++ s, ?_, ?_⟩
  · intro k
    rw [leftover_append]
    exact hs k
  · intro hcont
    have hleft : leftover (queue sends) (List.replicate (before.length + 1) i) j = z :: rest := by
      rw [leftover_eq_drop, List.count_replicate, if_neg (by simpa using hij), List.drop_zero, hz]
    have htrace : merge (queue sends) (List.replicate (before.length + 1) i ++ [j] ++ s) =
        before ++ x :: z :: merge
          (leftover (queue sends) (List.replicate (before.length + 1) i ++ [j])) s := by
      rw [merge_append, merge_append, merge_replicate, hqueue]
      simp [merge, hleft, List.take_append]
    have hnext := hcont.frame_next htrace (by rw [hindex, hcontent]; omega)
    have hzj : z.frame.1 = j := owner_of_mem_queue (by rw [hz]; exact List.mem_cons_self)
    rw [hnext, owner_of_mem_queue hx] at hzj
    exact hij hzj

/-- Without such a pair of tasks every interleaving consists of whole frames. -/
theorem contiguous_merge
    (h : ∀ i j, i ≠ j → (∃ f ∈ sends i, 2 ≤ f.length) → ∀ g ∈ sends j, g = []) {s : List ι}
    (hdone : ∀ i, leftover (queue sends) s i = []) :
    Contiguous (frameContent sends) (merge (queue sends) s) := by
  have howner : ∀ i, ∀ p ∈ queue sends i, p.frame.1 = i := fun i p hp => owner_of_mem_queue hp
  have hfilter (i : ι) :
      (merge (queue sends) s).filter (fun p => p.frame.1 = i) = queue sends i := by
    simpa [hdone i] using filter_merge howner s i
  by_cases hlong : ∃ i, ∃ f ∈ sends i, 2 ≤ f.length
  · -- only one task sends at all
    obtain ⟨i, hi⟩ := hlong
    have hall : ∀ p ∈ merge (queue sends) s, p.frame.1 = i := by
      intro p hp
      by_contra hne
      have hmem := mem_of_mem_merge howner hp
      rw [queue_eq_nil (h i p.frame.1 (Ne.symm hne) hi)] at hmem
      simp at hmem
    have hqueue : merge (queue sends) s = queue sends i := by
      rw [← hfilter i, List.filter_eq_self.mpr (by simpa using hall)]
    exact ⟨(List.range (sends i).length).map fun n => (i, n), by
      rw [hqueue, queue, List.flatMap_map]⟩
  · -- every frame is a single piece
    have hone : ∀ f : ι × ℕ, (frameContent sends f).length ≤ 1 := by
      rintro ⟨i, n⟩
      by_contra hlt
      by_cases hn : n < (sends i).length
      · exact hlong ⟨i, (sends i)[n], List.getElem_mem hn, by
          simpa [frameContent, hn, Nat.succ_le_iff] using hlt⟩
      · simp [frameContent, hn] at hlt
    have hpieces : ∀ p ∈ merge (queue sends) s, pieces (frameContent sends) p.frame = [p] := by
      intro p hp
      obtain ⟨n, -, hmem⟩ := mem_queue.mp (mem_of_mem_merge howner hp)
      have hframe := frame_of_mem_pieces hmem
      rw [← hframe] at hmem
      exact pieces_of_mem hmem (hone p.frame)
    refine ⟨(merge (queue sends) s).map Piece.frame, ?_⟩
    rw [List.flatMap_map]
    generalize merge (queue sends) s = t at hpieces
    induction t with
    | nil => rfl
    | cons p t ih =>
        rw [List.flatMap_cons, hpieces p List.mem_cons_self,
          ← ih fun q hq => hpieces q (List.mem_cons_of_mem p hq), List.singleton_append]

/-- Frames stay in one piece under every schedule exactly when no task has a
frame of several pieces while another one sends anything. -/
theorem contiguous_merge_iff [Fintype ι] :
    (∀ s, (∀ i, leftover (queue sends) s i = []) →
      Contiguous (frameContent sends) (merge (queue sends) s)) ↔
    ∀ i j, i ≠ j → (∃ f ∈ sends i, 2 ≤ f.length) → ∀ g ∈ sends j, g = [] := by
  constructor
  · rintro h i j hij ⟨f, hf, hlong⟩ g hg
    by_contra hne
    obtain ⟨s, hdone, htorn⟩ := exists_torn hij hf hlong hg hne
    exact htorn (h s hdone)
  · exact fun h s hdone => contiguous_merge h hdone

end

end Interleaving
