import Mathlib.Data.Nat.Find

namespace SearchEngine

/-- The places from p up to q have a property, and neither the one before them
nor q itself has it. -/
structure MaxRun (f : Nat → Bool) (p q : Nat) : Prop where
  nonempty : p < q
  inside : ∀ i, p ≤ i → i < q → f i = true
  before : ∀ i, i + 1 = p → f i = false
  after : f q = false

namespace MaxRun

variable {f : Nat → Bool} {p q r s i : Nat}

theorem starts (h : MaxRun f p q) : f p = true := h.inside p (Nat.le_refl p) h.nonempty

/-- No run starts inside another. -/
theorem start_outside (h : MaxRun f p q) (h' : MaxRun f r s) (hpr : p < r) : q < r := by
  apply Nat.lt_of_not_le
  intro hrq
  obtain ⟨i, rfl⟩ := Nat.exists_eq_add_one_of_ne_zero (Nat.ne_zero_of_lt hpr)
  have hin := h.inside i (Nat.lt_succ_iff.mp hpr) hrq
  rw [h'.before i rfl] at hin
  cases hin

theorem end_unique (h : MaxRun f p q) (h' : MaxRun f p s) : q = s := by
  rcases Nat.lt_trichotomy q s with hlt | heq | hlt
  · have hin := h'.inside q (Nat.le_of_lt h.nonempty) hlt
    rw [h.after] at hin
    cases hin
  · exact heq
  · have hin := h.inside s (Nat.le_of_lt h'.nonempty) hlt
    rw [h'.after] at hin
    cases hin

/-- A place with the property lies in a run, if the property ends somewhere. -/
theorem exists_around (hi : f i = true) {n : Nat} (hin : i < n) (hn : f n = false) :
    ∃ p q, MaxRun f p q ∧ p ≤ i ∧ i < q := by
  have hend : ∃ q, i < q ∧ f q = false := ⟨n, hin, hn⟩
  have hstart : ∃ p, ∀ j, p ≤ j → j ≤ i → f j = true := by
    refine ⟨i, fun j hij hji => ?_⟩
    rw [Nat.le_antisymm hji hij]
    exact hi
  obtain ⟨hlt, hafter⟩ := Nat.find_spec hend
  have hfrom := Nat.find_spec hstart
  have hle : Nat.find hstart ≤ i := Nat.find_min' hstart fun j hij hji => by
    rw [Nat.le_antisymm hji hij]
    exact hi
  refine ⟨Nat.find hstart, Nat.find hend, ⟨Nat.lt_of_le_of_lt hle hlt, ?_, ?_, hafter⟩, hle, hlt⟩
  · intro j hj hjq
    by_cases hji : j ≤ i
    · exact hfrom j hj hji
    · have hmin := Nat.find_min hend hjq
      cases hfj : f j with
      | true => rfl
      | false => exact absurd ⟨Nat.lt_of_not_le hji, hfj⟩ hmin
  · intro j hj
    have hmin := Nat.find_min hstart (show j < Nat.find hstart by omega)
    cases hfj : f j with
    | false => rfl
    | true =>
        refine absurd (fun k hk hki => ?_) hmin
        rcases Nat.lt_or_eq_of_le hk with hlt | rfl
        · exact hfrom k (by omega) hki
        · exact hfj

end MaxRun

end SearchEngine
