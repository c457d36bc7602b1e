import Mathlib.Algebra.Group.Int.Defs
import Mathlib.Algebra.GroupWithZero.Nat
import Mathlib.Data.List.Basic

namespace SearchEngine

/-- How a call can fail to return. The last case is the bound of the model's
own loops and is never an outcome of the code. -/
inductive Fault
  | verify333
  | signedOverflow
  | badAccess
  | divisionByZero
  | assertFailed
  | outOfFuel
  deriving DecidableEq, Repr

abbrev Run := Except Fault

namespace Run

variable {α β : Type}

@[simp]
theorem pure_eq_ok (a : α) : (pure a : Run α) = .ok a := rfl

@[simp]
theorem ok_bind (a : α) (f : α → Run β) : ((Except.ok a : Run α) >>= f) = f a := rfl

@[simp]
theorem error_bind (e : Fault) (f : α → Run β) : ((Except.error e : Run α) >>= f) = .error e := rfl

/-- The inversion used to peel a successful computation apart. -/
theorem bind_eq_ok {x : Run α} {f : α → Run β} {b : β} :
    (x >>= f) = .ok b ↔ ∃ a, x = .ok a ∧ f a = .ok b := by
  cases x with
  | ok a => simp
  | error e => simp

theorem bind_eq_error {x : Run α} {f : α → Run β} {e : Fault} :
    (x >>= f) = .error e ↔ x = .error e ∨ ∃ a, x = .ok a ∧ f a = .error e := by
  cases x with
  | ok a => simp
  | error e' => simp

def fault : Run α → Option Fault
  | .ok _ => none
  | .error e => some e

theorem eq_ok {r : Run α} (h : r.fault = none) : ∃ a, r = .ok a := by
  cases r with
  | ok a => exact ⟨a, rfl⟩
  | error e => cases h

theorem eq_error {r : Run α} {e : Fault} (h : r.fault = some e) : r = .error e := by
  cases r with
  | ok a => cases h
  | error e' => exact congrArg Except.error (Option.some.inj h)

/-- A loop each of whose rounds keeps an invariant and adds one. -/
theorem foldlM_grows {σ ι : Type} {P : σ → Prop} {n : σ → Nat} {f : σ → ι → Run σ}
    (hstep : ∀ s s' i, P s → f s i = .ok s' → P s' ∧ n s' = n s + 1) {s s' : σ} {is : List ι} (h : P s)
    (hrun : is.foldlM f s = .ok s') : P s' ∧ n s' = n s + is.length := by
  induction is generalizing s with
  | nil =>
      obtain rfl : s = s' := by simpa using hrun
      exact ⟨h, rfl⟩
  | cons i is ih =>
      rw [List.foldlM_cons] at hrun
      obtain ⟨s₁, hone, hrest⟩ := bind_eq_ok.mp hrun
      obtain ⟨h₁, hn⟩ := hstep s s₁ i h hone
      obtain ⟨h', hn'⟩ := ih h₁ hrest
      refine ⟨h', ?_⟩
      rw [hn', hn, List.length_cons]
      omega

end Run

/-- A std::string, or a C string without its terminator. -/
abbrev Bytes := List UInt8

def ascii (s : List Char) : Bytes := s.map fun c => UInt8.ofNat c.toNat

def INT_MAX : Nat := 2147483647

/-- The macro Verify333: the program exits when the condition is false. -/
def verify333 (cond : Bool) : Run Unit := if cond then .ok () else .error .verify333

@[simp]
theorem verify333_true : verify333 true = .ok () := rfl

@[simp]
theorem verify333_false : verify333 false = .error .verify333 := rfl

/-- Products and sums of non-negative ints. Signed overflow is undefined. -/
def intMul (a b : Nat) : Run Nat := if a * b ≤ INT_MAX then .ok (a * b) else .error .signedOverflow

def intAdd (a b : Nat) : Run Nat := if a + b ≤ INT_MAX then .ok (a + b) else .error .signedOverflow

def intSum (a b : Int) : Run Int :=
  if -INT_MAX - 1 ≤ a + b ∧ a + b ≤ INT_MAX then .ok (a + b) else .error .signedOverflow

theorem intSum_eq {a b : Int} (ha : 0 ≤ a + b) (h : a + b < 2 ^ 31) : intSum a b = .ok (a + b) := by
  have hmax : (INT_MAX : Int) = 2147483647 := rfl
  exact if_pos (by omega)

theorem intMul_eq_ok {a b c : Nat} : intMul a b = .ok c ↔ a * b ≤ INT_MAX ∧ c = a * b := by
  by_cases h : a * b ≤ INT_MAX <;> simp [intMul, h, eq_comm]

theorem intAdd_eq_ok {a b c : Nat} : intAdd a b = .ok c ↔ a + b ≤ INT_MAX ∧ c = a + b := by
  by_cases h : a + b ≤ INT_MAX <;> simp [intAdd, h, eq_comm]

theorem intAdd_bind {α : Type} (a b : Nat) (f : Nat → Run α) :
    (intAdd a b >>= f) = (intAdd a b >>= fun _ => f (a + b)) := by
  unfold intAdd
  split <;> rfl

end SearchEngine
