import Mathlib.Data.List.Perm.Basic

/-! Bubble sort by passes, over any strict comparison. -/

namespace SearchEngine.BubbleSort

variable {α : Type} (swap : α → α → Bool)

/-- One pass with an element in hand: the list after it, and whether any two
neighbours were exchanged. -/
def pass : α → List α → List α × Bool
  | a, [] => ([a], false)
  | a, b :: l =>
      if swap a b then (b :: (pass a l).1, true)
      else (a :: (pass b l).1, (pass b l).2)

def sort : Nat → List α → Option (List α)
  | 0, _ => none
  | _ + 1, [] => some []
  | bound + 1, a :: l => if (pass swap a l).2 then sort bound (pass swap a l).1 else some (a :: l)

def inversions : List α → Nat
  | [] => 0
  | a :: l => l.countP (swap a) + inversions l

variable {swap}

theorem pass_perm (a : α) (l : List α) : (pass swap a l).1.Perm (a :: l) := by
  induction l generalizing a with
  | nil => exact .rfl
  | cons b l ih =>
      simp only [pass]
      split
      · exact ((ih a).cons b).trans (List.Perm.swap a b l)
      · exact (ih b).cons a

theorem pass_unswapped {a : α} {l : List α} (h : (pass swap a l).2 = false) :
    (a :: l).IsChain fun x y => swap x y = false := by
  induction l generalizing a with
  | nil => exact .singleton a
  | cons b l ih =>
      simp only [pass] at h
      split at h
      · cases h
      · next hab => exact .cons_cons (by simpa using hab) (ih h)

theorem pass_same {a : α} {l : List α} (h : (pass swap a l).2 = false) : (pass swap a l).1 = a :: l := by
  induction l generalizing a with
  | nil => rfl
  | cons b l ih =>
      simp only [pass] at h ⊢
      split at h
      · cases h
      · rw [if_neg ‹_›, ih h]

/-- Exchanging two neighbours in the wrong order removes one inversion. -/
theorem inversions_pass (hasymm : ∀ x y, swap x y = true → swap y x = false) (a : α) (l : List α) :
    inversions swap (pass swap a l).1 + (pass swap a l).2.toNat ≤ inversions swap (a :: l) := by
  induction l generalizing a with
  | nil => simp [pass, inversions]
  | cons b l ih =>
      simp only [pass]
      split
      · next hab =>
        have hperm : (pass swap a l).1.Perm (a :: l) := pass_perm a l
        have hcount := hperm.countP_eq (swap b)
        have hih := ih a
        simp only [inversions, List.countP_cons, hasymm a b hab, hab] at hcount hih ⊢
        simp only [Bool.toNat_true]
        simp at hcount ⊢
        omega
      · next hab =>
        have hperm : (pass swap b l).1.Perm (b :: l) := pass_perm b l
        have hcount := hperm.countP_eq (swap a)
        have hih := ih b
        simp only [inversions, List.countP_cons, hab] at hcount hih ⊢
        simp at hcount ⊢
        omega

theorem sort_spec (hasymm : ∀ x y, swap x y = true → swap y x = false) (bound : Nat) (l : List α)
    (hbound : inversions swap l < bound) :
    ∃ l', sort swap bound l = some l' ∧ l'.Perm l ∧ l'.IsChain fun x y => swap x y = false := by
  induction bound generalizing l with
  | zero => omega
  | succ bound ih =>
      cases l with
      | nil => exact ⟨[], rfl, .rfl, .nil⟩
      | cons a l =>
          simp only [sort]
          split
          · next hswapped =>
            have hdrop := inversions_pass hasymm a l
            rw [hswapped] at hdrop
            obtain ⟨l', hsort, hperm, hchain⟩ := ih (pass swap a l).1 (by
              simp only [Bool.toNat_true] at hdrop
              omega)
            exact ⟨l', hsort, hperm.trans (pass_perm a l), hchain⟩
          · next hdone => exact ⟨a :: l, rfl, .rfl, pass_unswapped (by simpa using hdone)⟩

theorem inversions_le (l : List α) : inversions swap l ≤ l.length * l.length := by
  induction l with
  | nil => simp [inversions]
  | cons a l ih =>
      have hle := List.countP_le_length (p := swap a) (l := l)
      simp only [inversions, List.length_cons, Nat.add_mul, Nat.mul_add]
      omega

/-- Whatever the comparison, a sort that ends has only moved elements. -/
theorem sort_perm {bound : Nat} {l l' : List α} (h : sort swap bound l = some l') : l'.Perm l := by
  induction bound generalizing l with
  | zero => cases h
  | succ bound ih =>
      cases l with
      | nil =>
          cases h
          exact .rfl
      | cons a l =>
          simp only [sort] at h
          split at h
          · exact (ih h).trans (pass_perm a l)
          · cases h
            exact .rfl

/-- Elements no two of which are ever exchanged keep their order. -/
theorem pass_filter {keep : α → Bool} (hkeep : ∀ x y, swap x y = true → keep x = true → keep y = false) (a : α)
    (l : List α) : (pass swap a l).1.filter keep = (a :: l).filter keep := by
  induction l generalizing a with
  | nil => rfl
  | cons b l ih =>
      simp only [pass]
      by_cases hab : swap a b = true
      · rw [if_pos hab, List.filter_cons, ih a]
        cases ha : keep a with
        | true => simp [ha, hkeep a b hab ha]
        | false => simp [List.filter_cons, ha]
      · rw [if_neg hab, List.filter_cons, ih b, ← List.filter_cons]

theorem sort_filter {keep : α → Bool} (hkeep : ∀ x y, swap x y = true → keep x = true → keep y = false) {bound : Nat}
    {l l' : List α} (h : sort swap bound l = some l') : l'.filter keep = l.filter keep := by
  induction bound generalizing l with
  | zero => cases h
  | succ bound ih =>
      cases l with
      | nil =>
          cases h
          rfl
      | cons a l =>
          simp only [sort] at h
          split at h
          · rw [ih h, pass_filter hkeep a l]
          · cases h
            rfl

end SearchEngine.BubbleSort
