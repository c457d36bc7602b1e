import SearchEngine.Library.FileImage
import Mathlib.Algebra.BigOperators.Group.List.Basic
import Mathlib.Algebra.GroupWithZero.Nat

namespace SearchEngine.Layout

variable {α : Type}

/-- The room that items take one after the other. -/
def total (size : α → Nat) (as : List α) : Nat := (as.map size).sum

/-- What is written for items in order, where each of them may depend on the
place its own room starts at. -/
def layout (size : α → Nat) (f : Nat → α → List UInt8) : Nat → List α → List UInt8
  | _, [] => []
  | p, a :: as => f p a ++ layout size f (p + size a) as

variable {size width : α → Nat} {f g : Nat → α → List UInt8} {p q : Nat} {a : α} {as : List α}

@[simp]
theorem total_nil : total size [] = 0 := rfl

@[simp]
theorem total_cons : total size (a :: as) = size a + total size as := rfl

theorem total_append (size : α → Nat) (as bs : List α) : total size (as ++ bs) = total size as + total size bs := by
  simp [total]

theorem total_const (k : Nat) (as : List α) : total (fun _ => k) as = k * as.length := by
  induction as with
  | nil => rfl
  | cons a as ih =>
      rw [total_cons, ih, List.length_cons, Nat.mul_succ]
      omega

theorem total_congr {size size' : α → Nat} {as : List α} (h : ∀ a ∈ as, size a = size' a) :
    total size as = total size' as := congrArg List.sum (List.map_congr_left h)

theorem total_le {c : Nat} (h : ∀ a ∈ as, size a ≤ c) : total size as ≤ c * as.length := by
  induction as with
  | nil => exact Nat.zero_le _
  | cons a as ih =>
      have hfirst := h a (by simp)
      have hrest := ih fun b hb => h b (by simp [hb])
      rw [total_cons, List.length_cons, Nat.mul_succ]
      omega

theorem length_layout (h : ∀ a ∈ as, ∀ p, (f p a).length = width a) :
    (layout size f p as).length = total width as := by
  induction as generalizing p with
  | nil => rfl
  | cons a as ih =>
      rw [layout, List.length_append, h a (by simp), ih fun b hb => h b (by simp [hb]), total_cons]

theorem total_take_le (size : α → Nat) (as : List α) (i : Nat) : total size (as.take i) ≤ total size as := by
  have h := total_append size (as.take i) (as.drop i)
  rw [List.take_append_drop] at h
  omega

theorem total_take_add_le {i : Nat} (size : α → Nat) (hi : as[i]? = some a) :
    total size (as.take i) + size a ≤ total size as := by
  obtain ⟨hlt, rfl⟩ := List.getElem?_eq_some_iff.mp hi
  have h := total_take_le size as (i + 1)
  rw [← List.take_append_getElem hlt, total_append, total_cons] at h
  omega

theorem holds_layout {file : FileImage} {i : Nat} (h : file.Holds q (layout size f p as))
    (hi : as[i]? = some a) (hlen : ∀ a ∈ as, ∀ p, (f p a).length = width a) :
    file.Holds (q + total width (as.take i)) (f (p + total size (as.take i)) a) := by
  induction as generalizing p q i with
  | nil => simp at hi
  | cons b as ih =>
      rw [layout, FileImage.holds_append] at h
      cases i with
      | zero =>
          obtain rfl : b = a := by simpa using hi
          simpa using h.1
      | succ i =>
          rw [hlen b (by simp)] at h
          have hrest := ih h.2 (by simpa using hi) fun c hc => hlen c (by simp [hc])
          simpa [Nat.add_assoc] using hrest

/-- Two layouts of the same items grow side by side: one step of a loop that
writes a record for an item and then the item. -/
theorem patch_layout_cons (size : α → Nat) (f g : Nat → α → List UInt8) (q p : Nat) (a : α) (as : List α)
    (file : FileImage) {k : Nat} (hf : (f p a).length = k) (hg : (g p a).length = size a)
    (hroom : q + k + (layout size f (p + size a) as).length ≤ p) :
    ((((file.patch q (f p a)).patch p (g p a)).patch (q + k) (layout size f (p + size a) as)).patch (p + size a)
      (layout size g (p + size a) as)) =
      (file.patch q (layout size f p (a :: as))).patch p (layout size g p (a :: as)) := by
  have hcomm : ((file.patch q (f p a)).patch p (g p a)).patch (q + k) (layout size f (p + size a) as) =
      ((file.patch q (f p a)).patch (q + k) (layout size f (p + size a) as)).patch p (g p a) :=
    (FileImage.patch_comm hroom).symm
  rw [hcomm, ← hf, FileImage.patch_append, ← hg, FileImage.patch_append, hg]
  rfl

end SearchEngine.Layout
