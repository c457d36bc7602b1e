import Mathlib.Control.Basic

namespace SearchEngine

/-- A computation that calls operations of its environment, and can fail by
itself. What the operations do is left to whoever runs it. -/
inductive Program (Op Reply ε α : Type) : Type
  | done (a : α)
  | fail (e : ε)
  | call (op : Op) (next : Reply → Program Op Reply ε α)

namespace Program

variable {Op Reply ε α β σ : Type}

def bind : Program Op Reply ε α → (α → Program Op Reply ε β) → Program Op Reply ε β
  | done a, f => f a
  | fail e, _ => fail e
  | call op next, f => call op fun r => (next r).bind f

instance : Monad (Program Op Reply ε) where
  pure := done
  bind := bind

def perform (op : Op) : Program Op Reply ε Reply := call op done

def run (handle : Op → σ → Reply × σ) : Program Op Reply ε α → σ → Except ε (α × σ)
  | done a, s => .ok (a, s)
  | fail e, _ => .error e
  | call op next, s => run handle (next (handle op s).1) (handle op s).2

@[simp]
theorem ok_bind (a : α) (f : α → Except ε β) : (Except.ok a : Except ε α).bind f = f a := (rfl)

@[simp]
theorem error_bind (e : ε) (f : α → Except ε β) : (Except.error e : Except ε α).bind f = .error e := (rfl)

theorem bind_eq_ok {x : Except ε α} {f : α → Except ε β} {b : β} :
    x.bind f = .ok b ↔ ∃ a, x = .ok a ∧ f a = .ok b := by
  cases x with
  | error e => simp
  | ok a => simp

variable (handle : Op → σ → Reply × σ)

@[simp]
theorem run_pure (a : α) (s : σ) : run handle (pure a : Program Op Reply ε α) s = .ok (a, s) := (rfl)

@[simp]
theorem run_fail (e : ε) (s : σ) : run handle (fail e : Program Op Reply ε α) s = .error e := (rfl)

@[simp]
theorem run_perform (op : Op) (s : σ) :
    run handle (perform op : Program Op Reply ε Reply) s = .ok (handle op s) := (rfl)

@[simp]
theorem run_bind (x : Program Op Reply ε α) (f : α → Program Op Reply ε β) (s : σ) :
    run handle (x >>= f) s = (run handle x s).bind fun r => run handle (f r.1) r.2 := by
  induction x generalizing s with
  | done a => rfl
  | fail e => rfl
  | call op next ih => exact ih _ _

theorem run_bind_eq_ok {x : Program Op Reply ε α} {f : α → Program Op Reply ε β} {s : σ} {r : β × σ} :
    run handle (x >>= f) s = .ok r ↔ ∃ a s', run handle x s = .ok (a, s') ∧ run handle (f a) s' = .ok r := by
  rw [run_bind, bind_eq_ok, Prod.exists]

/-- What is noted of the operations that a run calls, in order. -/
def trace {γ : Type} (note : Op → σ → List γ) : Program Op Reply ε α → σ → List γ
  | done _, _ => []
  | fail _, _ => []
  | call op next, s => note op s ++ trace note (next (handle op s).1) (handle op s).2

theorem trace_bind_ok {γ : Type} {note : Op → σ → List γ} {x : Program Op Reply ε α} {s s' : σ} {a : α}
    (h : x.run handle s = .ok (a, s')) (f : α → Program Op Reply ε β) :
    trace handle note (x >>= f) s = trace handle note x s ++ trace handle note (f a) s' := by
  induction x generalizing s with
  | done b =>
      obtain ⟨rfl, rfl⟩ := Prod.mk.inj (Except.ok.inj h)
      rfl
  | fail e => cases h
  | call op next ih =>
      have hstep : trace handle note (call op next >>= f) s =
          note op s ++ trace handle note (next (handle op s).1 >>= f) (handle op s).2 := rfl
      rw [hstep, ih _ h, ← List.append_assoc]
      rfl

/-- What holds of every value that the program returns. -/
structure Ensures (p : Program Op Reply ε α) (Q : α → Prop) : Prop where
  of_run : ∀ s a s', p.run handle s = .ok (a, s') → Q a

namespace Ensures

variable {handle : Op → σ → Reply × σ} {Q : α → Prop} {R : β → Prop}

theorem pure {a : α} (h : Q a) : Ensures handle (Pure.pure a : Program Op Reply ε α) Q := by
  constructor
  intro s b s' hrun
  obtain rfl := (Prod.mk.inj (Except.ok.inj hrun)).1
  exact h

theorem bind {x : Program Op Reply ε α} {f : α → Program Op Reply ε β} (hx : Ensures handle x Q)
    (hf : ∀ a, Q a → Ensures handle (f a) R) : Ensures handle (x >>= f) R := by
  constructor
  intro s b s' hrun
  rw [run_bind] at hrun
  cases hfirst : x.run handle s with
  | error e =>
      rw [hfirst] at hrun
      cases hrun
  | ok r =>
      rw [hfirst] at hrun
      exact (hf r.1 (hx.of_run s r.1 r.2 hfirst)).of_run r.2 b s' hrun

theorem mono {Q' : α → Prop} {x : Program Op Reply ε α} (hx : Ensures handle x Q) (h : ∀ a, Q a → Q' a) :
    Ensures handle x Q' := ⟨fun s a s' hrun => h a (hx.of_run s a s' hrun)⟩

theorem any (p : Program Op Reply ε α) : Ensures handle p fun _ => True :=
  ⟨fun _ _ _ _ => True.intro⟩

theorem ite {c : Prop} [Decidable c] {x y : Program Op Reply ε α} (hx : Ensures handle x Q)
    (hy : Ensures handle y Q) : Ensures handle (if c then x else y) Q := by
  split
  · exact hx
  · exact hy

end Ensures

/-- What holds of every error that the program ends in. -/
structure Raises (p : Program Op Reply ε α) (E : ε → Prop) : Prop where
  of_run : ∀ s e, p.run handle s = .error e → E e

namespace Raises

variable {handle : Op → σ → Reply × σ} {E : ε → Prop}

theorem pure (a : α) : Raises handle (Pure.pure a : Program Op Reply ε α) E := by
  constructor
  intro s e hrun
  cases hrun

theorem fail {e : ε} (h : E e) : Raises handle (Program.fail e : Program Op Reply ε α) E := by
  constructor
  intro s e' hrun
  obtain rfl := Except.error.inj hrun
  exact h

theorem bind {x : Program Op Reply ε α} {f : α → Program Op Reply ε β} (hx : Raises handle x E)
    (hf : ∀ a, Raises handle (f a) E) : Raises handle (x >>= f) E := by
  constructor
  intro s e hrun
  rw [run_bind] at hrun
  cases hfirst : x.run handle s with
  | error e' =>
      rw [hfirst] at hrun
      obtain rfl := Except.error.inj hrun
      exact hx.of_run s e' hfirst
  | ok r =>
      rw [hfirst] at hrun
      exact (hf r.1).of_run r.2 e hrun

theorem perform (op : Op) : Raises handle (Program.perform op : Program Op Reply ε Reply) E := by
  constructor
  intro s e hrun
  cases hrun

theorem ite {c : Prop} [Decidable c] {x y : Program Op Reply ε α} (hx : Raises handle x E)
    (hy : Raises handle y E) : Raises handle (if c then x else y) E := by
  split
  · exact hx
  · exact hy

end Raises

/-- Whatever the replies, only these operations are called. -/
inductive Only (Q : Op → Prop) : Program Op Reply ε α → Prop
  | done (a : α) : Only Q (.done a)
  | fail (e : ε) : Only Q (.fail e)
  | call {op : Op} {next : Reply → Program Op Reply ε α} (hop : Q op) (hnext : ∀ r, Only Q (next r)) :
      Only Q (.call op next)

namespace Only

variable {Q : Op → Prop}

theorem pure (a : α) : Only Q (Pure.pure a : Program Op Reply ε α) := .done a

theorem bind {x : Program Op Reply ε α} {f : α → Program Op Reply ε β} (hx : Only Q x) (hf : ∀ a, Only Q (f a)) :
    Only Q (x >>= f) := by
  induction hx with
  | done a => exact hf a
  | fail e => exact .fail e
  | call hop _ ih => exact .call hop ih

theorem ite {c : Prop} [Decidable c] {x y : Program Op Reply ε α} (hx : Only Q x) (hy : Only Q y) :
    Only Q (if c then x else y) := by
  split
  · exact hx
  · exact hy

theorem mono {Q' : Op → Prop} {x : Program Op Reply ε α} (hx : Only Q x) (h : ∀ op, Q op → Q' op) : Only Q' x := by
  induction hx with
  | done a => exact .done a
  | fail e => exact .fail e
  | call hop _ ih => exact .call (h _ hop) ih

theorem trace_eq_nil {γ : Type} {handle : Op → σ → Reply × σ} {note : Op → σ → List γ}
    (hnote : ∀ op s, Q op → note op s = []) {p : Program Op Reply ε α} (hp : Only Q p) (s : σ) :
    trace handle note p s = [] := by
  induction hp generalizing s with
  | done a => rfl
  | fail e => rfl
  | call hop _ ih => rw [trace, hnote _ s hop, ih, List.append_nil]

end Only

/-- Two environments that answer alike, step by step. -/
theorem run_simulates {τ : Type} {handle : Op → σ → Reply × σ} {handle' : Op → τ → Reply × τ} {R : σ → τ → Prop}
    {Q : Op → Prop}
    (hstep : ∀ op s t, Q op → R s t → (handle op s).1 = (handle' op t).1 ∧ R (handle op s).2 (handle' op t).2)
    {p : Program Op Reply ε α} (hp : Only Q p) {s : σ} {t t' : τ} {a : α} (hR : R s t)
    (h : p.run handle' t = .ok (a, t')) : ∃ s', p.run handle s = .ok (a, s') ∧ R s' t' := by
  induction hp generalizing s t with
  | done b =>
      obtain ⟨rfl, rfl⟩ := Prod.mk.inj (Except.ok.inj h)
      exact ⟨s, rfl, hR⟩
  | fail e => cases h
  | @call op next hop _ ih =>
      obtain ⟨hreply, hstate⟩ := hstep op s t hop hR
      rw [run, ← hreply] at h
      exact ih _ hstate h

/-- The run comes to a step that is bad. -/
def Meets (handle : Op → σ → Reply × σ) (bad : Op → σ → Prop) : Program Op Reply ε α → σ → Prop
  | done _, _ => False
  | fail _, _ => False
  | call op next, s => bad op s ∨ Meets handle bad (next (handle op s).1) (handle op s).2

/-- After an operation of this kind has failed, only this is done. -/
inductive AbortsTo (Q : Op → Prop) (failed : Reply) (stop : Program Op Reply ε α) : Program Op Reply ε α → Prop
  | done (a : α) : AbortsTo Q failed stop (.done a)
  | fail (e : ε) : AbortsTo Q failed stop (.fail e)
  | call {op : Op} {next : Reply → Program Op Reply ε α} (hstop : Q op → next failed = stop)
      (hnext : ∀ r, AbortsTo Q failed stop (next r)) : AbortsTo Q failed stop (.call op next)

namespace AbortsTo

variable {Q : Op → Prop} {failed : Reply} {stop : Program Op Reply ε β} {bad : α}

theorem pure (b : β) : AbortsTo Q failed stop (Pure.pure b) := .done b

theorem bind {x : Program Op Reply ε α} {f : α → Program Op Reply ε β} (hx : AbortsTo Q failed (Pure.pure bad) x)
    (hbad : f bad = stop) (hf : ∀ a, AbortsTo Q failed stop (f a)) : AbortsTo Q failed stop (x >>= f) := by
  induction hx with
  | done a => exact hf a
  | fail e => exact .fail e
  | @call op next hstop _ ih =>
      refine .call ?_ ih
      intro hop
      have hfailed : (next failed).bind f = stop := by
        rw [hstop hop]
        exact hbad
      exact hfailed

/-- A part that calls no such operation. -/
theorem skip {x : Program Op Reply ε α} {f : α → Program Op Reply ε β} (hx : Only (fun op => ¬Q op) x)
    (hf : ∀ a, AbortsTo Q failed stop (f a)) : AbortsTo Q failed stop (x >>= f) := by
  induction hx with
  | done a => exact hf a
  | fail e => exact .fail e
  | call hop _ ih => exact .call (fun h => absurd h hop) ih

theorem ite {c : Prop} [Decidable c] {x y : Program Op Reply ε β} (hx : AbortsTo Q failed stop x)
    (hy : AbortsTo Q failed stop y) : AbortsTo Q failed stop (if c then x else y) := by
  split
  · exact hx
  · exact hy

end AbortsTo

section

variable {handle handle' : Op → σ → Reply × σ} {bad : Op → σ → Prop} {Q : Op → Prop} {failed : Reply}
  {stop p : Program Op Reply ε α} {s : σ}

theorem run_of_not_meets (hsame : ∀ op s, ¬bad op s → handle' op s = handle op s) (h : ¬Meets handle bad p s) :
    p.run handle' s = p.run handle s := by
  induction p generalizing s with
  | done a => rfl
  | fail e => rfl
  | call op next ih =>
      have hstep := hsame op s fun hbad => h (.inl hbad)
      rw [run, run, hstep]
      exact ih _ fun hmeets => h (.inr hmeets)

theorem not_meets (h : ∀ op s, ¬bad op s) : ¬Meets handle bad p s := by
  induction p generalizing s with
  | done a => exact id
  | fail e => exact id
  | call op next ih =>
      rintro (hnow | hlater)
      · exact h op s hnow
      · exact ih _ hlater

theorem run_of_meets (hp : AbortsTo Q failed stop p) (hsame : ∀ op s, ¬bad op s → handle' op s = handle op s)
    (hbad : ∀ op s, bad op s → Q op ∧ (handle' op s).1 = failed) (h : Meets handle bad p s) :
    ∃ s', p.run handle' s = stop.run handle' s' := by
  induction hp generalizing s with
  | done a => exact h.elim
  | fail e => exact h.elim
  | @call op next hstop _ ih =>
      by_cases hnow : bad op s
      · obtain ⟨hop, hreply⟩ := hbad op s hnow
        rw [run, hreply, hstop hop]
        exact ⟨_, rfl⟩
      · rcases h with hnow' | hlater
        · exact absurd hnow' hnow
        · rw [run, hsame op s hnow]
          exact ih _ hlater

end

end Program

end SearchEngine
