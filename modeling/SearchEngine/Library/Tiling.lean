import Mathlib.Algebra.GroupWithZero.Nat
import Mathlib.Order.Interval.Finset.Nat

/-! Ranges of places, and how often each place is covered. -/

namespace SearchEngine.Tiling

variable {rs : List (Finset Nat)} {lo n : Nat}

def cover (rs : List (Finset Nat)) (i : Nat) : Nat := rs.countP fun R => i ∈ R

/-- The cover of n places from lo on, each of them once. -/
def span (lo n i : Nat) : Nat := if lo ≤ i ∧ i < lo + n then 1 else 0

/-- The ranges fill the places from lo up to hi, without gaps or overlaps. -/
structure Tiles (rs : List (Finset Nat)) (lo hi : Nat) : Prop where
  disjoint : rs.Pairwise Disjoint
  mem : ∀ i, (∃ R ∈ rs, i ∈ R) ↔ lo ≤ i ∧ i < hi

theorem cover_append (rs ss : List (Finset Nat)) : cover (rs ++ ss) = cover rs + cover ss := by
  funext i
  exact List.countP_append

theorem cover_range (lo n : Nat) : cover [Finset.Ico lo (lo + n)] = span lo n := by
  funext i
  simp [cover, span, List.countP_cons]

theorem span_zero (lo : Nat) : span lo 0 = 0 := by
  funext i
  rw [span, if_neg (by omega)]
  rfl

theorem span_add (lo m n : Nat) : span lo (m + n) = span lo m + span (lo + m) n := by
  funext i
  simp only [span, Pi.add_apply]
  split <;> split <;> split <;> omega

/-- Two ranges with a common place would cover it twice. -/
theorem disjoint_of_cover_le (h : ∀ i, cover rs i ≤ 1) : rs.Pairwise Disjoint := by
  induction rs with
  | nil => exact .nil
  | cons R rs ih =>
      have hcons (i : Nat) : cover (R :: rs) i = cover rs i + if i ∈ R then 1 else 0 := by
        simp [cover, List.countP_cons]
      refine .cons ?_ (ih fun i => ?_)
      · intro S hS
        rw [Finset.disjoint_left]
        intro i hi hiS
        have hle := h i
        have hpos : 0 < cover rs i := List.countP_pos_iff.mpr ⟨S, hS, decide_eq_true hiS⟩
        rw [hcons, if_pos hi] at hle
        omega
      · have hle := h i
        rw [hcons] at hle
        omega

theorem tiles_of_cover (h : cover rs = span lo n) : Tiles rs lo (lo + n) where
  disjoint := by
    apply disjoint_of_cover_le
    intro i
    rw [h, span]
    split <;> omega
  mem := by
    intro i
    have hmem : (∃ R ∈ rs, i ∈ R) ↔ 0 < cover rs i := by
      rw [cover, List.countP_pos_iff]
      simp
    rw [hmem, h, span]
    split <;> omega

end SearchEngine.Tiling
