import Mathlib.Data.List.Basic
import Mathlib.Algebra.GroupWithZero.Nat

/-! Tasks that take something from a common stock, one after the other, and
may not give all of it back. -/

namespace SearchEngine.Quota

variable {β : Type} (peak left : β → Nat) {limit : Nat}

/-- The stock lasts, when so much of it is out: each task that takes anything
needs its peak, and what it leaves out is missing from then on. -/
def Within (limit : Nat) : Nat → List β → Prop
  | _, [] => True
  | out, b :: bs => (peak b ≠ 0 → out + peak b ≤ limit) ∧ Within limit (out + left b) bs

instance decidableWithin (limit : Nat) : (out : Nat) → (bs : List β) → Decidable (Within peak left limit out bs)
  | _, [] => isTrue trivial
  | out, b :: bs =>
      have := decidableWithin limit (out + left b) bs
      inferInstanceAs (Decidable (_ ∧ _))

variable {peak left}

theorem within_append (as bs : List β) (out : Nat) :
    Within peak left limit out (as ++ bs) ↔
      Within peak left limit out as ∧ Within peak left limit (out + (as.map left).sum) bs := by
  induction as generalizing out with
  | nil => simp [Within]
  | cons a as ih =>
      rw [List.cons_append, Within, Within, ih, List.map_cons, List.sum_cons, and_assoc, Nat.add_assoc]

/-- What the tasks are does not matter beyond what they take and leave out. -/
theorem within_congr {γ : Type} {peak' left' : γ → Nat} {bs : List β} {cs : List γ}
    (h : List.Forall₂ (fun b c => peak b = peak' c ∧ left b = left' c) bs cs) (out : Nat) :
    Within peak left limit out bs ↔ Within peak' left' limit out cs := by
  induction h generalizing out with
  | nil => exact Iff.rfl
  | cons hb _ ih => rw [Within, Within, hb.1, hb.2, ih]

/-- A stock that has as much for each task as any of them takes. -/
theorem within_of_length {k : Nat} (hpeak : ∀ b, peak b ≤ k) (hleft : ∀ b, left b ≤ k) {bs : List β} {out : Nat}
    (h : out + k * bs.length ≤ limit) : Within peak left limit out bs := by
  induction bs generalizing out with
  | nil => trivial
  | cons b bs ih =>
      have hpeak := hpeak b
      have hleft := hleft b
      rw [List.length_cons, Nat.mul_succ] at h
      exact ⟨fun _ => by omega, ih (by omega)⟩

end SearchEngine.Quota
