import Mathlib.Data.List.Basic
import Mathlib.Tactic.Common

/-! Division by a polynomial, with a register that takes in one bit at a time. -/

namespace SearchEngine.BitSerial

variable {w : Nat} (poly : BitVec w)

/-- A bit meets the highest one of the register, which is then shifted out. -/
def step (r : BitVec w) (bit : Bool) : BitVec w := (r <<< 1) ^^^ (if r.msb ^^ bit then poly else 0#w)

def run (r : BitVec w) (bits : List Bool) : BitVec w := bits.foldl (step poly) r

def shifts : Nat → BitVec w → BitVec w
  | 0, r => r
  | n + 1, r => shifts n (step poly r false)

theorem feed_xor (a b : Bool) :
    (if a ^^ b then poly else 0#w) = (if a then poly else 0#w) ^^^ (if b then poly else 0#w) := by
  cases a <;> cases b <;> simp

theorem step_xor (x y : BitVec w) : step poly (x ^^^ y) false = step poly x false ^^^ step poly y false := by
  unfold step
  rw [BitVec.shiftLeft_xor_distrib, BitVec.msb_xor, Bool.xor_false, Bool.xor_false, Bool.xor_false, feed_xor]
  ac_rfl

theorem shifts_xor (n : Nat) (x y : BitVec w) : shifts poly n (x ^^^ y) = shifts poly n x ^^^ shifts poly n y := by
  induction n generalizing x y with
  | zero => rfl
  | succ n ih => rw [shifts, step_xor, ih, shifts, shifts]

theorem shifts_of_clear {n : Nat} {r : BitVec w} (h : ∀ i < n, r.getMsbD i = false) : shifts poly n r = r <<< n := by
  induction n generalizing r with
  | zero => rw [shifts, BitVec.shiftLeft_zero]
  | succ n ih =>
      have hstep : step poly r false = r <<< 1 := by
        rw [step, BitVec.msb, h 0 (Nat.succ_pos n)]
        simp
      have hclear : ∀ i < n, (r <<< 1).getMsbD i = false := by
        intro i hi
        rw [BitVec.getMsbD_shiftLeft]
        exact h (i + 1) (Nat.succ_lt_succ hi)
      rw [shifts, hstep, ih hclear, ← BitVec.shiftLeft_add, Nat.add_comm]

theorem step_bit (r d : BitVec w) : step poly r d.msb ^^^ d <<< 1 = step poly (r ^^^ d) false := by
  unfold step
  rw [BitVec.shiftLeft_xor_distrib, BitVec.msb_xor, Bool.xor_false]
  ac_rfl

/-- A whole word of bits can meet the register at once. -/
theorem run_word {n : Nat} (r : BitVec w) {d : BitVec w} (h : ∀ i, n ≤ i → d.getMsbD i = false) :
    run poly r ((List.range n).map d.getMsbD) = shifts poly n (r ^^^ d) := by
  induction n generalizing r d with
  | zero =>
      have hzero : d = 0#w := by
        apply BitVec.eq_of_getMsbD_eq
        intro i _
        rw [h i (Nat.zero_le i), BitVec.getMsbD_zero]
      rw [hzero, BitVec.xor_zero]
      rfl
  | succ n ih =>
      have hrest : ∀ i, n ≤ i → (d <<< 1).getMsbD i = false := by
        intro i hi
        rw [BitVec.getMsbD_shiftLeft]
        exact h (i + 1) (Nat.succ_le_succ hi)
      have htail : (List.range n).map (d.getMsbD ∘ Nat.succ) = (List.range n).map (d <<< 1).getMsbD := by
        apply List.map_congr_left
        intro i _
        rw [BitVec.getMsbD_shiftLeft]
        rfl
      rw [List.range_succ_eq_map, List.map_cons, List.map_map, htail]
      change run poly (step poly r d.msb) _ = _
      rw [ih _ hrest, step_bit, shifts]

theorem run_append (r : BitVec w) (xs ys : List Bool) : run poly r (xs ++ ys) = run poly (run poly r xs) ys :=
  List.foldl_append

/-- What a table is for: of the register and the word, only the places that
are shifted out need the polynomial. -/
theorem run_split {n : Nat} (r : BitVec w) {d high low : BitVec w} (h : ∀ i, n ≤ i → d.getMsbD i = false)
    (hsplit : r ^^^ d = high ^^^ low) (hlow : ∀ i < n, low.getMsbD i = false) :
    run poly r ((List.range n).map d.getMsbD) = shifts poly n high ^^^ low <<< n := by
  rw [run_word poly r h, hsplit, shifts_xor, shifts_of_clear poly hlow]

theorem reverse_xor (x y : BitVec w) : (x ^^^ y).reverse = x.reverse ^^^ y.reverse := by
  apply BitVec.eq_of_getLsbD_eq
  intro i _
  rw [BitVec.getLsbD_reverse, BitVec.getMsbD_xor, BitVec.getLsbD_xor, BitVec.getLsbD_reverse, BitVec.getLsbD_reverse]

end SearchEngine.BitSerial
