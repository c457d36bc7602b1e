import Mathlib.Data.List.Basic
import Mathlib.Data.List.TakeWhile

/-! Words that do not have the separator, each after one. -/

namespace SearchEngine.Separated

variable {α : Type}

def joined (sep : α) (words : List (List α)) : List α := words.flatMap (sep :: ·)

variable {sep : α}

@[simp]
theorem joined_nil : joined sep [] = [] := rfl

@[simp]
theorem joined_cons (w : List α) (ws : List (List α)) : joined sep (w :: ws) = sep :: (w ++ joined sep ws) := rfl

theorem joined_append (us vs : List (List α)) : joined sep (us ++ vs) = joined sep us ++ joined sep vs :=
  List.flatMap_append

/-- Where the word ends there is a separator, or nothing. -/
theorem word_prefix_iff {u w x y : List α} (hu : sep ∉ u) (hw : sep ∉ w) (hy : y = [] ∨ ∃ z, y = sep :: z) :
    u ++ sep :: x <+: w ++ y ↔ u = w ∧ sep :: x <+: y := by
  induction u generalizing w with
  | nil =>
      cases w with
      | nil => simp
      | cons b w =>
          have hne : sep ≠ b := fun he => hw (he ▸ List.mem_cons_self)
          simp [List.cons_prefix_cons, hne]
  | cons a u ih =>
      cases w with
      | nil =>
          have hne : ∀ z, y = sep :: z → a ≠ sep := fun _ _ he => hu (he ▸ List.mem_cons_self)
          rcases hy with rfl | ⟨z, rfl⟩
          · simp
          · simp [List.cons_prefix_cons, hne z rfl]
      | cons b w =>
          have hrest := ih (w := w) (fun h => hu (List.mem_cons_of_mem a h)) fun h => hw (List.mem_cons_of_mem b h)
          rw [List.cons_append, List.cons_append, List.cons_prefix_cons, hrest, List.cons.injEq, and_assoc]

/-- A separator behind the words keeps the last of them from matching a longer
one. -/
theorem joined_prefix_iff {us ws : List (List α)} (hus : ∀ u ∈ us, sep ∉ u) (hws : ∀ w ∈ ws, sep ∉ w) :
    joined sep us ++ [sep] <+: joined sep ws ↔ us <+: ws ∧ us ≠ ws := by
  induction us generalizing ws with
  | nil =>
      cases ws with
      | nil => simp
      | cons w ws => simp [List.cons_prefix_cons]
  | cons u us ih =>
      cases ws with
      | nil => simp
      | cons w ws =>
          have hhead : ∃ x, joined sep us ++ [sep] = sep :: x := by
            cases us with
            | nil => exact ⟨[], rfl⟩
            | cons v us => exact ⟨_, rfl⟩
          have hend : joined sep ws = [] ∨ ∃ z, joined sep ws = sep :: z := by
            cases ws with
            | nil => exact .inl rfl
            | cons v ws => exact .inr ⟨_, rfl⟩
          obtain ⟨x, hx⟩ := hhead
          have hrest := @ih ws (fun v hv => hus v (List.mem_cons_of_mem u hv))
            fun v hv => hws v (List.mem_cons_of_mem w hv)
          rw [hx] at hrest
          rw [joined_cons, joined_cons, List.cons_append, List.append_assoc, hx, List.cons_prefix_cons,
            word_prefix_iff (hus u List.mem_cons_self) (hws w List.mem_cons_self) hend, hrest, List.cons_prefix_cons]
          simp only [true_and, ne_eq, List.cons.injEq, not_and, and_assoc]
          refine and_congr_right fun hu => and_congr_right fun _ => ?_
          simp [hu]

section

variable [DecidableEq α]

/-- The part before the first of these. -/
def upTo (c : α) (s : List α) : List α := s.takeWhile (· ≠ c)

theorem not_mem_upTo (c : α) (s : List α) : c ∉ upTo c s := by
  intro h
  simpa using List.mem_takeWhile_imp h

theorem upTo_isPrefix (c : α) (s : List α) : upTo c s <+: s := List.takeWhile_prefix _

theorem upTo_of_not_mem {c : α} {s : List α} (h : c ∉ s) : upTo c s = s := by
  rw [upTo, List.takeWhile_eq_self_iff]
  intro b hb
  have hne : b ≠ c := fun hbc => h (hbc ▸ hb)
  simpa using hne

theorem upTo_eq_self {c : α} {s : List α} : upTo c s = s ↔ c ∉ s := by
  constructor
  · intro h
    rw [← h]
    exact not_mem_upTo c s
  · exact upTo_of_not_mem

theorem upTo_append {c : α} {front : List α} (h : c ∉ front) (back : List α) :
    upTo c (front ++ back) = front ++ upTo c back := by
  apply List.takeWhile_append_of_pos
  intro b hb
  have hne : b ≠ c := fun hbc => h (hbc ▸ hb)
  simpa using hne

theorem upTo_stop (c : α) (text more : List α) : upTo c (text ++ c :: more) = upTo c text := by
  induction text with
  | nil => simp [upTo]
  | cons b text ih =>
      unfold upTo at ih ⊢
      rw [List.cons_append, List.takeWhile_cons, List.takeWhile_cons, ih]

theorem upTo_split (c : α) (s : List α) : ∃ back, s = upTo c s ++ back ∧ (back = [] ∨ ∃ more, back = c :: more) := by
  refine ⟨s.dropWhile (· ≠ c), List.takeWhile_append_dropWhile.symm, ?_⟩
  cases h : s.dropWhile (· ≠ c) with
  | nil => exact .inl rfl
  | cons b more =>
      have hb := List.head?_dropWhile_not (fun a => decide (a ≠ c)) s
      rw [h] at hb
      obtain rfl : b = c := by simpa using hb
      exact .inr ⟨more, rfl⟩

end

end SearchEngine.Separated
