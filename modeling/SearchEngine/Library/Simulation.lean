import Mathlib.Data.List.Basic

namespace SearchEngine.Simulation

variable {ε σ α ι ρ : Type}

/-- A fallible machine fed one input after another, with all its outputs. -/
def run (step : σ → ι → Except ε (σ × ρ)) : σ → List ι → Except ε (σ × List ρ)
  | s, [] => .ok (s, [])
  | s, i :: is => do
      let (s, out) ← step s i
      let (s, outs) ← run step s is
      return (s, out :: outs)

def specRun (spec : α → ι → α × ρ) : α → List ι → α × List ρ
  | a, [] => (a, [])
  | a, i :: is =>
      let next := spec a i
      let rest := specRun spec next.1 is
      (rest.1, next.2 :: rest.2)

@[simp]
theorem specRun_nil (spec : α → ι → α × ρ) (a : α) : specRun spec a [] = (a, []) := rfl

theorem specRun_cons (spec : α → ι → α × ρ) (a : α) (i : ι) (is : List ι) :
    specRun spec a (i :: is) =
      ((specRun spec (spec a i).1 is).1, (spec a i).2 :: (specRun spec (spec a i).1 is).2) := rfl

theorem specRun_append_fst (spec : α → ι → α × ρ) (a : α) (is js : List ι) :
    (specRun spec a (is ++ js)).1 = (specRun spec (specRun spec a is).1 js).1 := by
  induction is generalizing a with
  | nil => rfl
  | cons i is ih => simp only [List.cons_append, specRun_cons, ih]

/-- A resource bound that holds at the end of an abstract run held all along,
when no step gives resources back. -/
theorem bound_of_run {spec : α → ι → α × ρ} (Fits : α → Prop)
    (hmono : ∀ a i, Fits (spec a i).1 → Fits a) (is : List ι) (a : α)
    (h : Fits (specRun spec a is).1) : Fits a := by
  induction is generalizing a with
  | nil => exact h
  | cons i is ih => exact hmono a i (ih _ h)

/-- Forward simulation: a step lemma under a resource bound on the abstract
state gives the same outputs over whole runs. -/
theorem run_simulates {step : σ → ι → Except ε (σ × ρ)} {spec : α → ι → α × ρ} {R : σ → α → Prop}
    (Fits : α → Prop) (hmono : ∀ a i, Fits (spec a i).1 → Fits a)
    (hstep : ∀ s a i, R s a → Fits (spec a i).1 →
      ∃ s', step s i = .ok (s', (spec a i).2) ∧ R s' (spec a i).1)
    (is : List ι) (s : σ) (a : α) (hR : R s a) (hfit : Fits (specRun spec a is).1) :
    ∃ s', run step s is = .ok (s', (specRun spec a is).2) ∧ R s' (specRun spec a is).1 := by
  induction is generalizing s a with
  | nil => exact ⟨s, rfl, hR⟩
  | cons i is ih =>
      obtain ⟨s₁, h₁, hR₁⟩ := hstep s a i hR (bound_of_run Fits hmono is _ hfit)
      obtain ⟨s', h', hR'⟩ := ih s₁ (spec a i).1 hR₁ hfit
      exact ⟨s', by rw [run, h₁]; change (do let (s, outs) ← run step s₁ is; _) = _; rw [h']; rfl, hR'⟩

/-- Two fallible steps with the same outcome: the same fault, or the same
output and related states. -/
inductive Agrees (R : σ → α → Prop) : Except ε (σ × ρ) → Except ε (α × ρ) → Prop
  | ok {s : σ} {a : α} (out : ρ) (h : R s a) : Agrees R (.ok (s, out)) (.ok (a, out))
  | error (e : ε) : Agrees R (.error e) (.error e)

theorem Agrees.of_ok {R : σ → α → Prop} {s : σ} {out : ρ} {y : Except ε (α × ρ)} (h : Agrees R (.ok (s, out)) y) :
    ∃ a, y = .ok (a, out) ∧ R s a := by
  cases h with
  | @ok s a out h => exact ⟨a, rfl, h⟩

/-- A run that succeeds succeeded on each prefix of its inputs. -/
theorem run_append_ok {step : σ → ι → Except ε (σ × ρ)} {is js : List ι} {s s' : σ} {outs : List ρ}
    (h : run step s (is ++ js) = .ok (s', outs)) :
    ∃ s₁ outs₁ outs₂, run step s is = .ok (s₁, outs₁) ∧ run step s₁ js = .ok (s', outs₂) := by
  induction is generalizing s outs with
  | nil => exact ⟨s, [], outs, rfl, h⟩
  | cons i is ih =>
      simp only [List.cons_append, run] at h ⊢
      cases hi : step s i with
      | error e =>
          rw [hi] at h
          cases h
      | ok r =>
          rw [hi] at h
          change (run step r.1 (is ++ js) >>= fun x => Except.ok (x.1, r.2 :: x.2)) = _ at h
          cases hrest : run step r.1 (is ++ js) with
          | error e =>
              rw [hrest] at h
              cases h
          | ok x =>
              rw [hrest] at h
              cases h
              obtain ⟨s₁, outs₁, outs₂, h₁, h₂⟩ := ih hrest
              refine ⟨s₁, r.2 :: outs₁, outs₂, ?_, h₂⟩
              change (run step r.1 is >>= fun x => Except.ok (x.1, r.2 :: x.2)) = _
              rw [h₁]
              rfl

theorem Agrees.mono {R R' : σ → α → Prop} {x : Except ε (σ × ρ)} {y : Except ε (α × ρ)} (h : Agrees R x y)
    (hR : ∀ s a, R s a → R' s a) : Agrees R' x y := by
  cases h with
  | ok out h => exact .ok out (hR _ _ h)
  | error e => exact .error e

/-- Two steps that agree with a third agree with each other. -/
theorem Agrees.join {τ : Type} {R : σ → α → Prop} {R' : τ → α → Prop} {x : Except ε (σ × ρ)} {y : Except ε (α × ρ)}
    {z : Except ε (τ × ρ)} (h : Agrees R x y) (h' : Agrees R' z y) : Agrees (fun s t => ∃ a, R s a ∧ R' t a) x z := by
  cases h with
  | ok out hR =>
      cases h' with
      | ok _ hR' => exact .ok out ⟨_, hR, hR'⟩
  | error e =>
      cases h' with
      | error => exact .error e

/-- A condition on the state and the input that holds at every step of a run. -/
def Along (step : σ → ι → Except ε (σ × ρ)) (P : σ → ι → Prop) : σ → List ι → Prop
  | _, [] => True
  | s, i :: is => P s i ∧ ∀ next, step s i = .ok next → Along step P next.1 is

instance decidableAlong (step : σ → ι → Except ε (σ × ρ)) (P : σ → ι → Prop) [∀ s i, Decidable (P s i)] :
    (s : σ) → (is : List ι) → Decidable (Along step P s is)
  | _, [] => isTrue trivial
  | s, i :: is =>
      match h : step s i with
      | .error _ => decidable_of_iff (P s i) (by simp [Along, h])
      | .ok next =>
          have := decidableAlong step P next.1 is
          decidable_of_iff (P s i ∧ Along step P next.1 is) (by simp [Along, h])

theorem along_of_forall {step : σ → ι → Except ε (σ × ρ)} {P : σ → ι → Prop} {is : List ι}
    (h : ∀ i ∈ is, ∀ s, P s i) (s : σ) : Along step P s is := by
  induction is generalizing s with
  | nil => trivial
  | cons i is ih => exact ⟨h i (by simp) s, fun next _ => ih (fun j hj => h j (by simp [hj])) next.1⟩

/-- Machines whose steps agree from related states, under a condition that
every step of the run meets, agree over the whole run. -/
theorem run_agrees_along {step : σ → ι → Except ε (σ × ρ)} {spec : α → ι → Except ε (α × ρ)} {R : σ → α → Prop}
    {P : σ → ι → Prop} (hstep : ∀ s a i, R s a → P s i → Agrees R (step s i) (spec a i)) (is : List ι) {s : σ} {a : α}
    (hR : R s a) (halong : Along step P s is) : Agrees R (run step s is) (run spec a is) := by
  induction is generalizing s a with
  | nil => exact .ok [] hR
  | cons i is ih =>
      obtain ⟨hP, halong⟩ := halong
      have h := hstep s a i hR hP
      simp only [run]
      generalize step s i = x at h halong ⊢
      generalize spec a i = y at h ⊢
      cases h with
      | error e => exact .error e
      | @ok s₁ a₁ out h =>
          have hrest := ih h (halong _ rfl)
          change Agrees R (run step s₁ is >>= fun r => .ok (r.1, out :: r.2))
            (run spec a₁ is >>= fun r => .ok (r.1, out :: r.2))
          generalize run step s₁ is = x at hrest ⊢
          generalize run spec a₁ is = y at hrest ⊢
          cases hrest with
          | error e => exact .error e
          | ok outs h => exact .ok (out :: outs) h

theorem run_agrees {step : σ → ι → Except ε (σ × ρ)} {spec : α → ι → Except ε (α × ρ)} {R : σ → α → Prop}
    {is : List ι} (hstep : ∀ i ∈ is, ∀ s a, R s a → Agrees R (step s i) (spec a i)) {s : σ} {a : α} (hR : R s a) :
    Agrees R (run step s is) (run spec a is) :=
  run_agrees_along (P := fun _ i => i ∈ is) (fun s a i hR hi => hstep i hi s a hR) is hR
    (along_of_forall (fun _ hi _ => hi) s)

end SearchEngine.Simulation
