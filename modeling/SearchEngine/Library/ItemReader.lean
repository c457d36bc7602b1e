import Mathlib.Data.List.Basic

/-! Items that are read one after the other from the front of a string. -/

namespace SearchEngine

/-- Reads one item. What it leaves is shorter, so that reading comes to an
end. -/
structure ItemReader (α β : Type) where
  read : List β → Option (α × List β)
  shorter : ∀ {s : List β} {a : α} {rest : List β}, read s = some (a, rest) → rest.length < s.length

namespace ItemReader

variable {α β γ : Type} (R : ItemReader α β)

/-- All items that can be read, and what is left over. -/
def readAll (s : List β) : List α × List β :=
  match _h : R.read s with
  | none => ([], s)
  | some (a, rest) => (a :: (readAll rest).1, (readAll rest).2)
termination_by s.length
decreasing_by exact R.shorter _h

theorem readAll_none {s : List β} (h : R.read s = none) : R.readAll s = ([], s) := by
  rw [readAll]
  split
  · rfl
  · next hs =>
    rw [h] at hs
    cases hs

theorem readAll_some {s rest : List β} {a : α} (h : R.read s = some (a, rest)) :
    R.readAll s = (a :: (R.readAll rest).1, (R.readAll rest).2) := by
  rw [readAll]
  split
  · next hs =>
    rw [h] at hs
    cases hs
  · next hs =>
    obtain ⟨rfl, rfl⟩ : a = _ ∧ rest = _ := by simpa [h] using hs
    rfl

theorem read_nil : R.read [] = none := by
  cases h : R.read [] with
  | none => rfl
  | some item => exact absurd (R.shorter h) (Nat.not_lt_zero _)

/-- A reader that gets each item back, whatever follows it, gets all of them
back. -/
theorem readAll_flatMap {write : γ → List β} {item : γ → α} {xs : List γ}
    (h : ∀ x ∈ xs, ∀ rest, R.read (write x ++ rest) = some (item x, rest)) :
    R.readAll (xs.flatMap write) = (xs.map item, []) := by
  induction xs with
  | nil => exact R.readAll_none R.read_nil
  | cons x xs ih =>
      rw [List.flatMap_cons, R.readAll_some (h x List.mem_cons_self _), ih fun y hy => h y (List.mem_cons_of_mem x hy)]
      rfl

end ItemReader

end SearchEngine
