import Mathlib.Algebra.BigOperators.Fin
import Mathlib.Data.Fintype.BigOperators
import Mathlib.Algebra.Order.BigOperators.Group.Finset
import Mathlib.Algebra.Order.Group.Nat

/-! Machines that take one action after another, and the control points of
a fixed number of threads. -/

namespace SearchEngine.Transition

section Exec

variable {σ α : Type} {step : σ → α → Option σ}

/-- The state after a list of actions, when each of them is enabled in turn. -/
def exec (step : σ → α → Option σ) : σ → List α → Option σ
  | s, [] => some s
  | s, a :: as => (step s a).bind fun s' => exec step s' as

theorem exec_append (s : σ) (as bs : List α) :
    exec step s (as ++ bs) = (exec step s as).bind fun s' => exec step s' bs := by
  induction as generalizing s with
  | nil => rfl
  | cons a as ih => simp only [List.cons_append, exec, ih, Option.bind_assoc]

/-- A condition on the state and the action that holds at every step of a run. -/
def Along (step : σ → α → Option σ) (P : σ → α → Prop) : σ → List α → Prop
  | _, [] => True
  | s, a :: as => P s a ∧ ∀ s' ∈ step s a, Along step P s' as

/-- The invariant rule: what a step that meets the condition preserves holds
at the end of every run whose steps all meet it. -/
theorem exec_invariant_along {P : σ → α → Prop} {I : σ → Prop}
    (hstep : ∀ s a s', I s → P s a → step s a = some s' → I s') (as : List α) {s s' : σ}
    (hs : I s) (halong : Along step P s as) (hexec : exec step s as = some s') : I s' := by
  induction as generalizing s with
  | nil =>
      obtain rfl : s = s' := by simpa [exec] using hexec
      exact hs
  | cons a as ih =>
      obtain ⟨s₁, h₁, hexec⟩ := Option.bind_eq_some_iff.mp hexec
      obtain ⟨hP, halong⟩ := halong
      exact ih (hstep s a s₁ hs hP h₁) (halong s₁ h₁) hexec

theorem along_true (as : List α) (s : σ) : Along step (fun _ _ => True) s as := by
  induction as generalizing s with
  | nil => trivial
  | cons a as ih => exact ⟨trivial, fun s' _ => ih s'⟩

theorem exec_invariant {I : σ → Prop} (hstep : ∀ s a s', I s → step s a = some s' → I s')
    (as : List α) {s s' : σ} (hs : I s) (hexec : exec step s as = some s') : I s' :=
  exec_invariant_along (fun s a s' hI _ h => hstep s a s' hI h) as hs (along_true as s) hexec

/-- The accounting rule: a run costs no more than what is left at its start and
what its steps bring in. -/
theorem exec_cost {I : σ → Prop} {P : α → Prop} {left : σ → Nat} {cost gain : α → Nat}
    (hstep : ∀ s a s', I s → P a → step s a = some s' → I s' ∧ left s' + cost a ≤ left s + gain a)
    (as : List α) (hall : ∀ a ∈ as, P a) {s s' : σ} (hs : I s) (hexec : exec step s as = some s') :
    I s' ∧ left s' + (as.map cost).sum ≤ left s + (as.map gain).sum := by
  induction as generalizing s with
  | nil =>
      obtain rfl : s = s' := by simpa [exec] using hexec
      exact ⟨hs, Nat.le_refl _⟩
  | cons a as ih =>
      obtain ⟨s₁, h₁, hexec⟩ := Option.bind_eq_some_iff.mp hexec
      obtain ⟨ha, hall⟩ := List.forall_mem_cons.mp hall
      obtain ⟨hs₁, hfirst⟩ := hstep s a s₁ hs ha h₁
      obtain ⟨hs', hrest⟩ := ih hall hs₁ hexec
      refine ⟨hs', ?_⟩
      rw [List.map_cons, List.map_cons, List.sum_cons, List.sum_cons]
      omega

/-- The protocol rule: runs that follow a protocol stay good, and those that
leave it have gone bad for ever. -/
theorem exec_protocol {π : Type} {next : π → α → Option π} {Good : π → σ → Prop} {Bad : σ → Prop}
    (hgood : ∀ p s a s', Good p s → step s a = some s' →
      (∃ p', next p a = some p' ∧ Good p' s') ∨ next p a = none ∧ Bad s')
    (hbad : ∀ s a s', Bad s → step s a = some s' → Bad s') (as : List α) {p : π} {s s' : σ} (hs : Good p s)
    (hexec : exec step s as = some s') :
    (∃ p', exec next p as = some p' ∧ Good p' s') ∨ exec next p as = none ∧ Bad s' := by
  induction as generalizing p s with
  | nil =>
      obtain rfl : s = s' := by simpa [exec] using hexec
      exact .inl ⟨p, rfl, hs⟩
  | cons a as ih =>
      obtain ⟨s₁, h₁, hexec⟩ := Option.bind_eq_some_iff.mp hexec
      rw [exec]
      rcases hgood p s a s₁ hs h₁ with ⟨p₁, hnext, hs₁⟩ | ⟨hnext, hs₁⟩
      · rw [hnext, Option.bind_some]
        exact ih hs₁ hexec
      · rw [hnext]
        exact .inr ⟨rfl, exec_invariant hbad as hs₁ hexec⟩

instance (P : σ → α → Prop) [∀ s a, Decidable (P s a)] (s : σ) (as : List α) :
    Decidable (Along step P s as) := by
  induction as generalizing s with
  | nil => exact isTrue trivial
  | cons a as ih => exact inferInstanceAs (Decidable (_ ∧ _))

end Exec

section Threads

variable {n : Nat} {π : Type}

def total (f : π → Nat) (pc : Fin n → π) : Nat := ∑ w, f (pc w)

theorem total_update (f : π → Nat) (pc : Fin n → π) (w : Fin n) (x : π) :
    total f (Function.update pc w x) + f (pc w) = total f pc + f x := by
  have hrest : ∑ v ∈ Finset.univ.erase w, f (Function.update pc w x v) =
      ∑ v ∈ Finset.univ.erase w, f (pc v) := by
    refine Finset.sum_congr rfl fun v hv => ?_
    rw [Function.update_of_ne (Finset.ne_of_mem_erase hv)]
  have hafter := Finset.add_sum_erase Finset.univ (fun v => f (Function.update pc w x v))
    (Finset.mem_univ w)
  have hbefore := Finset.add_sum_erase Finset.univ (fun v => f (pc v)) (Finset.mem_univ w)
  simp only [Function.update_self] at hafter
  unfold total
  omega

theorem total_congr {f : π → Nat} {pc pc' : Fin n → π} (h : ∀ w, f (pc w) = f (pc' w)) :
    total f pc = total f pc' :=
  Finset.sum_congr rfl fun w _ => h w

theorem total_mono {f g : π → Nat} (h : ∀ x, f x ≤ g x) (pc : Fin n → π) : total f pc ≤ total g pc :=
  Finset.sum_le_sum fun w _ => h (pc w)

theorem le_total (f : π → Nat) (pc : Fin n → π) (w : Fin n) : f (pc w) ≤ total f pc :=
  Finset.single_le_sum (f := fun v => f (pc v)) (fun _ _ => Nat.zero_le _) (Finset.mem_univ w)

theorem total_eq_zero {f : π → Nat} {pc : Fin n → π} (h : ∀ w, f (pc w) = 0) : total f pc = 0 :=
  Finset.sum_eq_zero fun w _ => h w

theorem total_eq_card {f : π → Nat} (hf : ∀ x, f x ≤ 1) {pc : Fin n → π} :
    total f pc = n ↔ ∀ w, f (pc w) = 1 := by
  constructor
  · intro h w
    by_contra hw
    have hlt : total f pc < ∑ _v : Fin n, 1 :=
      Finset.sum_lt_sum (fun v _ => hf (pc v))
        ⟨w, Finset.mem_univ w, Nat.lt_of_le_of_ne (hf (pc w)) hw⟩
    simp [h] at hlt
  · intro h
    simp [total, h]

end Threads

end SearchEngine.Transition
