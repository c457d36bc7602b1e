import SearchEngine.Library.Framing

/-! Lines with a terminator each, and a block of them that ends with an empty
line. -/

namespace SearchEngine.Framing

variable {α : Type}

def block (eol : List α) (lines : List (List α)) : List α := lines.flatMap (· ++ eol) ++ eol

theorem block_cons (eol line : List α) (lines : List (List α)) :
    block eol (line :: lines) = line ++ eol ++ block eol lines := by
  simp [block]

theorem block_start {e : α} {lines : List (List α)} (h : ∀ line ∈ lines, line ≠ [] ∧ e ∉ line) (hlines : lines ≠ [])
    (eol s : List α) : ∃ a rest, block eol lines ++ s = a :: rest ∧ a ≠ e := by
  obtain ⟨line, more, rfl⟩ := List.exists_cons_of_ne_nil hlines
  obtain ⟨hne, hfree⟩ := h line List.mem_cons_self
  obtain ⟨a, line, rfl⟩ := List.exists_cons_of_ne_nil hne
  refine ⟨a, line ++ eol ++ block eol more ++ s, ?_, ?_⟩
  · rw [block_cons]
    simp
  · rintro rfl
    exact hfree List.mem_cons_self

variable [BEq α] [LawfulBEq α]

theorem find_here (pat s : List α) : find pat (pat ++ s) = some 0 := by
  cases h : pat ++ s with
  | nil =>
      obtain ⟨rfl, rfl⟩ := List.append_eq_nil_iff.mp h
      rfl
  | cons a t =>
      rw [find, if_pos]
      rw [List.isPrefixOf_iff_prefix, ← h]
      exact List.prefix_append pat s

theorem frame_here (pat s : List α) : frame pat (pat ++ s) = some (pat, s) := by
  rw [frame, find_here]
  simp

theorem frame_cons {pat s : List α} {a : α} (h : ¬pat <+: a :: s) :
    frame pat (a :: s) = (frame pat s).map fun p => (a :: p.1, p.2) := by
  rw [frame, frame, find, if_neg (by rwa [List.isPrefixOf_iff_prefix]), Option.map_map, Option.map_map]
  congr 1
  funext i
  simp only [Function.comp_apply]
  rw [Nat.add_right_comm, List.take_succ_cons, List.drop_succ_cons]

/-- No segment ends within a part that does not have the first character of the
delimiter. -/
theorem frame_append_left {e : α} {pat front : List α} (h : e ∉ front) (s : List α) :
    frame (e :: pat) (front ++ s) = (frame (e :: pat) s).map fun p => (front ++ p.1, p.2) := by
  induction front with
  | nil => simp
  | cons a front ih =>
      have hstart : ¬e :: pat <+: a :: (front ++ s) := by
        intro hpre
        exact h ((List.cons_prefix_cons.mp hpre).1 ▸ List.mem_cons_self)
      rw [List.cons_append, frame_cons hstart, ih fun hmem => h (List.mem_cons_of_mem a hmem), Option.map_map]
      rfl

/-- A line and its terminator. -/
theorem frame_line {e : α} {tail line : List α} (h : e ∉ line) (s : List α) :
    frame (e :: tail) (line ++ (e :: tail) ++ s) = some (line ++ (e :: tail), s) := by
  rw [List.append_assoc, frame_append_left h, frame_here]
  rfl

variable {e : α} {tail : List α} {lines : List (List α)}

/-- A block of lines that are not empty ends at the first empty line. -/
theorem frame_block (htail : e ∉ tail) (h : ∀ line ∈ lines, line ≠ [] ∧ e ∉ line) (hlines : lines ≠ []) (s : List α) :
    frame ((e :: tail) ++ (e :: tail)) (block (e :: tail) lines ++ s) = some (block (e :: tail) lines, s) := by
  induction lines with
  | nil => exact absurd rfl hlines
  | cons line lines ih =>
      obtain ⟨_, hfree⟩ := h line List.mem_cons_self
      have hrest : ∀ l ∈ lines, l ≠ [] ∧ e ∉ l := fun l hl => h l (List.mem_cons_of_mem line hl)
      rw [block_cons, List.append_assoc, List.append_assoc]
      change frame (e :: (tail ++ e :: tail)) _ = _
      rw [frame_append_left hfree]
      by_cases hnil : lines = []
      · subst hnil
        have hend : (e :: tail) ++ (block (e :: tail) [] ++ s) = (e :: (tail ++ e :: tail)) ++ s := by simp [block]
        rw [hend, frame_here]
        simp [block]
      · have hstart : ¬e :: (tail ++ e :: tail) <+: e :: (tail ++ (block (e :: tail) lines ++ s)) := by
          obtain ⟨a, rest, hblock, hne⟩ := block_start hrest hnil (e :: tail) s
          rw [List.cons_prefix_cons, List.prefix_append_right_inj, hblock, List.cons_prefix_cons]
          exact fun hpre => hne hpre.2.1.symm
        have hmore := ih hrest hnil
        rw [List.cons_append] at hmore
        rw [List.cons_append, frame_cons hstart, frame_append_left htail, hmore]
        simp

/-- The lines of a block, each with its terminator, and the empty line. -/
theorem segments_block (h : ∀ line ∈ lines, e ∉ line) :
    segments (e :: tail) (List.cons_ne_nil e tail) (block (e :: tail) lines) =
      lines.map (· ++ (e :: tail)) ++ [e :: tail] := by
  induction lines with
  | nil =>
      have hone : frame (e :: tail) (block (e :: tail) []) = some (e :: tail, []) := by
        simpa [block] using frame_here (e :: tail) []
      have hnone : frame (e :: tail) [] = none := rfl
      rw [segments_of_some hone, segments_of_none hnone]
      rfl
  | cons line lines ih =>
      rw [block_cons, segments_of_some (frame_line (h line List.mem_cons_self) _),
        ih fun l hl => h l (List.mem_cons_of_mem line hl)]
      rfl

end SearchEngine.Framing
