import Mathlib.Data.List.Basic
import Mathlib.Data.List.TakeWhile

/-! The words between the delimiters of a text. -/

namespace SearchEngine.Runs

variable {α β : Type}

/-- The longest stretches without delimiters, in order. -/
def runs (isDelim : α → Bool) (s : List α) : List (List α) := (s.splitOnP isDelim).filter fun w => !w.isEmpty

variable {isDelim : α → Bool}

theorem runs_cons {d : α} (hd : isDelim d = true) (s : List α) : runs isDelim (d :: s) = runs isDelim s := by
  rw [runs, List.splitOnP_cons_eq_if_modifyHead, if_pos hd]
  rfl

theorem runs_gap {gap : List α} (hgap : ∀ a ∈ gap, isDelim a = true) (s : List α) :
    runs isDelim (gap ++ s) = runs isDelim s := by
  induction gap with
  | nil => rfl
  | cons d gap ih =>
      rw [List.cons_append, runs_cons (hgap d List.mem_cons_self)]
      exact ih fun a ha => hgap a (List.mem_cons_of_mem d ha)

theorem runs_append_cons {d : α} (hd : isDelim d = true) (s t : List α) :
    runs isDelim (s ++ d :: t) = runs isDelim s ++ runs isDelim t := by
  rw [runs, List.splitOnP_append_cons s t hd, List.filter_append]
  rfl

theorem runs_append_gap {gap : List α} (hgap : ∀ a ∈ gap, isDelim a = true) (s : List α) :
    runs isDelim (s ++ gap) = runs isDelim s := by
  cases gap with
  | nil => rw [List.append_nil]
  | cons d gap =>
      have hempty := runs_gap (fun a ha => hgap a (List.mem_cons_of_mem d ha)) []
      rw [List.append_nil] at hempty
      rw [runs_append_cons (hgap d List.mem_cons_self), hempty]
      exact List.append_nil _

theorem runs_clear {w : List α} (hne : w ≠ []) (hclear : ∀ a ∈ w, isDelim a = false) : runs isDelim w = [w] := by
  rw [runs, List.splitOnP_eq_singleton hclear]
  cases w with
  | nil => exact absurd rfl hne
  | cons a w => rfl

/-- A word ends where the text does, or before a delimiter. -/
theorem runs_word {w rest : List α} (hne : w ≠ []) (hclear : ∀ a ∈ w, isDelim a = false)
    (hrest : ∀ a ∈ rest.head?, isDelim a = true) : runs isDelim (w ++ rest) = w :: runs isDelim rest := by
  cases rest with
  | nil =>
      rw [List.append_nil, runs_clear hne hclear]
      rfl
  | cons d rest =>
      have hd := hrest d rfl
      rw [runs_append_cons hd, runs_clear hne hclear, runs_cons hd]
      rfl

theorem delim_after (s : List α) : ∀ a ∈ (s.dropWhile fun a => !isDelim a).head?, isDelim a = true := by
  intro a ha
  have hhead := List.head?_dropWhile_not (fun a => !isDelim a) s
  rw [Option.mem_def.mp ha] at hhead
  simpa using hhead

/-- A scanner may skip the delimiter behind a word with it. -/
theorem runs_tail {s : List α} (h : ∀ a ∈ s.head?, isDelim a = true) : runs isDelim s.tail = runs isDelim s := by
  cases s with
  | nil => rfl
  | cons d s => exact (runs_cons (h d rfl) s).symm

/-- How a scanner reads the words: it skips the delimiters, and takes what
comes before the next one. -/
theorem runs_scan {s : List α} (h : s.dropWhile isDelim ≠ []) :
    runs isDelim s = (s.dropWhile isDelim).takeWhile (fun a => !isDelim a) ::
      runs isDelim ((s.dropWhile isDelim).dropWhile fun a => !isDelim a) := by
  have hskip : runs isDelim s = runs isDelim (s.dropWhile isDelim) := by
    conv_lhs => rw [← List.takeWhile_append_dropWhile (p := isDelim) (l := s)]
    exact runs_gap (fun a ha => List.mem_takeWhile_imp ha) _
  generalize hrest : s.dropWhile isDelim = t at h hskip
  rw [hskip]
  conv_lhs => rw [← List.takeWhile_append_dropWhile (p := fun a => !isDelim a) (l := t)]
  apply runs_word
  · obtain ⟨a, t, rfl⟩ := List.exists_cons_of_ne_nil h
    have ha : isDelim a = false := by
      have hhead := List.head?_dropWhile_not isDelim s
      rw [hrest] at hhead
      simpa using hhead
    simp [ha]
  · intro a ha
    simpa using List.mem_takeWhile_imp ha
  · exact delim_after t

theorem length_scan_lt {s : List α} (h : s.dropWhile isDelim ≠ []) :
    ((s.dropWhile isDelim).dropWhile fun a => !isDelim a).length < s.length := by
  have hle : (s.dropWhile isDelim).length ≤ s.length := (List.dropWhile_suffix isDelim).length_le
  have hhead := List.head?_dropWhile_not isDelim s
  obtain ⟨a, t, hs⟩ := List.exists_cons_of_ne_nil h
  rw [hs] at hle hhead ⊢
  have ha : isDelim a = false := by simpa using hhead
  rw [List.dropWhile_cons, ha]
  exact Nat.lt_of_lt_of_le (Nat.lt_succ_of_le (List.dropWhile_suffix _).length_le) hle

theorem runs_eq_nil {s : List α} : runs isDelim s = [] ↔ ∀ a ∈ s, isDelim a = true := by
  constructor
  · intro h
    by_cases hempty : s.dropWhile isDelim = []
    · exact List.dropWhile_eq_nil_iff.mp hempty
    · rw [runs_scan hempty] at h
      cases h
  · intro h
    have hgap := runs_gap h []
    rwa [List.append_nil] at hgap

/-- There is a delimiter between any two words. -/
theorem two_mul_length_runs_le (isDelim : α → Bool) (s : List α) : 2 * (runs isDelim s).length ≤ s.length + 1 := by
  induction hn : s.length using Nat.strong_induction_on generalizing s with
  | _ n ih =>
      by_cases hempty : s.dropWhile isDelim = []
      · rw [runs_eq_nil.mpr (List.dropWhile_eq_nil_iff.mp hempty)]
        exact Nat.zero_le _
      · have hlt := length_scan_lt hempty
        rw [runs_scan hempty, ← runs_tail (delim_after _), List.length_cons]
        generalize (s.dropWhile isDelim).dropWhile (fun a => !isDelim a) = rest at hlt ⊢
        have hrest := ih rest.tail.length (by rw [List.length_tail]; omega) rest.tail rfl
        cases rest with
        | nil =>
            change 2 * (0 + 1) ≤ n + 1
            rw [List.length_nil] at hlt
            omega
        | cons d rest =>
            rw [List.tail_cons] at hrest ⊢
            rw [List.length_cons] at hlt
            omega

theorem runs_congr {isDelim' : α → Bool} {s : List α} (h : ∀ a ∈ s, isDelim a = isDelim' a) :
    runs isDelim s = runs isDelim' s := by
  have hsplit : s.splitOnP isDelim = s.splitOnP isDelim' := by
    induction s with
    | nil => rfl
    | cons a s ih =>
        rw [List.splitOnP_cons_eq_if_modifyHead, List.splitOnP_cons_eq_if_modifyHead, h a List.mem_cons_self,
          ih fun b hb => h b (List.mem_cons_of_mem a hb)]
  rw [runs, runs, hsplit]

/-- The words are what a split at every delimiter gives, unless it gives empty
ones. -/
theorem splitOnP_eq_runs {s : List α} : s.splitOnP isDelim = runs isDelim s ↔ [] ∉ s.splitOnP isDelim := by
  rw [runs, eq_comm, List.filter_eq_self]
  constructor
  · intro h hnil
    cases h [] hnil
  · intro h w hw
    cases w with
    | nil => exact absurd hw h
    | cons a w => rfl

theorem splitOnP_map {isDelim' : β → Bool} {f : α → β} (hf : ∀ a, isDelim' (f a) = isDelim a) (s : List α) :
    (s.map f).splitOnP isDelim' = (s.splitOnP isDelim).map (List.map f) := by
  induction s with
  | nil => rfl
  | cons a s ih =>
      rw [List.map_cons, List.splitOnP_cons_eq_if_modifyHead, List.splitOnP_cons_eq_if_modifyHead, hf, ih]
      split
      · rfl
      · cases s.splitOnP isDelim <;> rfl

theorem nil_mem_splitOnP {s : List α} : [] ∈ s.splitOnP isDelim ↔
    (∀ b ∈ s.head?, isDelim b = true) ∨ [] ∈ (s.splitOnP isDelim).tail := by
  cases s with
  | nil => simp
  | cons b s =>
      rw [List.splitOnP_cons_eq_if_modifyHead]
      by_cases hb : isDelim b = true
      · simp [hb]
      · obtain ⟨w, ws, hsplit⟩ := List.exists_cons_of_ne_nil (List.splitOnP_ne_nil isDelim s)
        simp [hb, hsplit]

/-- An empty word behind the first stands between a delimiter and another, or
the end. -/
theorem nil_mem_tail_splitOnP {s : List α} : [] ∈ (s.splitOnP isDelim).tail ↔
    ∃ x d y, s = x ++ d :: y ∧ isDelim d = true ∧ ∀ b ∈ y.head?, isDelim b = true := by
  induction s with
  | nil => simp
  | cons a s ih =>
      have hlater : (∃ x d y, a :: s = x ++ d :: y ∧ isDelim d = true ∧ ∀ b ∈ y.head?, isDelim b = true) ↔
          (isDelim a = true ∧ ∀ b ∈ s.head?, isDelim b = true) ∨ [] ∈ (s.splitOnP isDelim).tail := by
        rw [ih]
        constructor
        · rintro ⟨x, d, y, hs, hd, hy⟩
          rcases List.cons_eq_append_iff.mp hs with ⟨rfl, hcons⟩ | ⟨x', rfl, hs'⟩
          · obtain ⟨rfl, rfl⟩ := List.cons.inj hcons
            exact .inl ⟨hd, hy⟩
          · exact .inr ⟨x', d, y, hs', hd, hy⟩
        · rintro (⟨ha, hs⟩ | ⟨x, d, y, rfl, hd, hy⟩)
          · exact ⟨[], a, s, rfl, ha, hs⟩
          · exact ⟨a :: x, d, y, rfl, hd, hy⟩
      rw [hlater, List.splitOnP_cons_eq_if_modifyHead]
      by_cases ha : isDelim a = true
      · rw [if_pos ha, List.tail_cons, nil_mem_splitOnP]
        simp [ha]
      · rw [if_neg ha, List.tail_modifyHead]
        simp [ha]

theorem mem_of_head {x y : List α} {b c : α} (h : (x ++ c :: y).head? = some b) (hne : c ≠ b) : b ∈ x := by
  cases x with
  | nil => exact absurd (Option.some.inj h) hne
  | cons a x =>
      obtain rfl := Option.some.inj h
      exact List.mem_cons_self

theorem mem_of_last {y : List α} {b c : α} (h : (c :: y).getLast? = some b) (hne : c ≠ b) : b ∈ y := by
  cases y with
  | nil => exact absurd (Option.some.inj h) hne
  | cons a y =>
      rw [List.getLast?_cons_cons] at h
      exact List.mem_of_getLast? h

theorem delim_ne {b c : α} (hb : isDelim b = true) (hc : isDelim c = false) : b ≠ c := by
  rintro rfl
  rw [hb] at hc
  cases hc

/-- The ends of a text, when no delimiters, are not where two of them stand. -/
theorem ends_mem {x y : List α} {b₀ b₁ d e : α} (hhead : (x ++ d :: e :: y).head? = some b₀)
    (hlast : (x ++ d :: e :: y).getLast? = some b₁) (hb₀ : isDelim b₀ = false) (hb₁ : isDelim b₁ = false)
    (hd : isDelim d = true) (he : isDelim e = true) : b₀ ∈ x ∧ b₁ ∈ y := by
  rw [List.getLast?_append_cons, List.getLast?_cons_cons] at hlast
  exact ⟨mem_of_head hhead (delim_ne hd hb₀), mem_of_last hlast (delim_ne he hb₁)⟩

/-- In a text that starts and ends with words, an empty word stands between two
delimiters. -/
theorem nil_mem_splitOnP_iff {s : List α} {b₀ b₁ : α} (hhead : s.head? = some b₀) (hlast : s.getLast? = some b₁)
    (hb₀ : isDelim b₀ = false) (hb₁ : isDelim b₁ = false) : [] ∈ s.splitOnP isDelim ↔
      ∃ x d e y, s = x ++ d :: e :: y ∧ isDelim d = true ∧ isDelim e = true := by
  rw [nil_mem_splitOnP, nil_mem_tail_splitOnP]
  constructor
  · rintro (hstart | ⟨x, d, y, rfl, hd, hy⟩)
    · exact absurd rfl (delim_ne (hstart b₀ hhead) hb₀)
    · rw [List.getLast?_append_cons] at hlast
      have hy₁ := mem_of_last hlast (delim_ne hd hb₁)
      cases y with
      | nil => cases hy₁
      | cons e y => exact ⟨x, d, e, y, rfl, hd, hy e rfl⟩
  · rintro ⟨x, d, e, y, hs, hd, he⟩
    exact .inr ⟨x, d, e :: y, hs, hd, by simpa using he⟩

end SearchEngine.Runs
