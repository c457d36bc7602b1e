import Mathlib.Data.List.GetD

namespace SearchEngine

/-- The bytes of a file. Past its length all of them are zero, as in a hole
that a later write leaves behind. -/
@[ext]
structure FileImage where
  length : Nat
  contents : Nat → UInt8

namespace FileImage

def empty : FileImage := ⟨0, fun _ => 0⟩

def patch (file : FileImage) (off : Nat) (bs : List UInt8) : FileImage where
  length := if bs = [] then file.length else max file.length (off + bs.length)
  contents i := if off ≤ i then bs.getD (i - off) (file.contents i) else file.contents i

def slice (file : FileImage) (off n : Nat) : List UInt8 := (List.range n).map fun i => file.contents (off + i)

def Holds (file : FileImage) (off : Nat) (bs : List UInt8) : Prop :=
  ∀ i b, bs[i]? = some b → off + i < file.length ∧ file.contents (off + i) = b

variable {file : FileImage} {off off' : Nat} {xs ys : List UInt8}

@[simp]
theorem patch_nil (file : FileImage) (off : Nat) : file.patch off [] = file := by
  ext i
  · simp [patch]
  · simp [patch]

theorem patch_contents_of_lt {i : Nat} (h : i < off) : (file.patch off xs).contents i = file.contents i := by
  simp [patch, Nat.not_le_of_lt h]

theorem patch_contents_of_le {i : Nat} (h : off + xs.length ≤ i) :
    (file.patch off xs).contents i = file.contents i := by
  have hle : off ≤ i := by omega
  simp only [patch, hle, if_true]
  rw [List.getD_eq_default _ _ (by omega)]

theorem patch_append (file : FileImage) (off : Nat) (xs ys : List UInt8) :
    (file.patch off xs).patch (off + xs.length) ys = file.patch off (xs ++ ys) := by
  ext i
  · simp only [patch, List.append_eq_nil_iff, List.length_append]
    by_cases hx : xs = [] <;> by_cases hy : ys = []
    · simp [hx, hy]
    · simp [hx, hy]
    · simp [hx, hy]
    · simp only [hx, hy, if_false, false_and]
      omega
  · simp only [patch]
    by_cases hoff : off ≤ i
    · by_cases hx : off + xs.length ≤ i
      · rw [if_pos hx, if_pos hoff, if_pos hoff, List.getD_append_right _ _ _ _ (by omega),
          List.getD_eq_default xs _ (by omega), Nat.sub_add_eq]
      · rw [if_neg hx, if_pos hoff, if_pos hoff, List.getD_append _ _ _ _ (by omega)]
    · rw [if_neg (by omega), if_neg hoff, if_neg hoff]

theorem patch_comm (h : off + xs.length ≤ off') :
    (file.patch off xs).patch off' ys = (file.patch off' ys).patch off xs := by
  ext i
  · simp only [patch]
    by_cases hx : xs = [] <;> by_cases hy : ys = []
    · simp [hx, hy]
    · simp [hx, hy]
    · simp [hx, hy]
    · simp only [hx, hy, if_false]
      omega
  · by_cases hi : i < off'
    · rw [patch_contents_of_lt hi]
      simp only [patch]
      rw [if_neg (by omega : ¬off' ≤ i)]
    · rw [patch_contents_of_le (by omega : off + xs.length ≤ i)]
      simp only [patch]
      rw [if_pos (by omega : off ≤ i), List.getD_eq_default xs _ (by omega)]

theorem holds_patch (file : FileImage) (off : Nat) (bs : List UInt8) : (file.patch off bs).Holds off bs := by
  intro i b hb
  obtain ⟨hi, rfl⟩ := List.getElem?_eq_some_iff.mp hb
  have hne : bs ≠ [] := List.ne_nil_of_length_pos (by omega)
  constructor
  · simp only [patch, hne, if_false]
    omega
  · simp [patch, hi]

theorem holds_append : file.Holds off (xs ++ ys) ↔ file.Holds off xs ∧ file.Holds (off + xs.length) ys := by
  constructor
  · intro h
    constructor
    · intro i b hb
      have hi := (List.getElem?_eq_some_iff.mp hb).1
      exact h i b (by rwa [List.getElem?_append_left hi])
    · intro i b hb
      have hy := h (xs.length + i) b (by rwa [List.getElem?_append_right (by omega), Nat.add_sub_cancel_left])
      rwa [← Nat.add_assoc] at hy
  · rintro ⟨hx, hy⟩ i b hb
    by_cases hi : i < xs.length
    · exact hx i b (by rwa [List.getElem?_append_left hi] at hb)
    · rw [List.getElem?_append_right (by omega)] at hb
      have h := hy (i - xs.length) b hb
      rwa [show off + xs.length + (i - xs.length) = off + i by omega] at h

theorem Holds.slice (h : file.Holds off xs) : file.slice off xs.length = xs := by
  apply List.ext_getElem
  · simp [FileImage.slice]
  · intro i hi hx
    have hb := (h i xs[i] (List.getElem?_eq_getElem hx)).2
    simp [FileImage.slice, hb]

theorem Holds.le_length (h : file.Holds off xs) (hne : xs ≠ []) : off + xs.length ≤ file.length := by
  have hpos := List.length_pos_iff.mpr hne
  have hlast := (h (xs.length - 1) xs[xs.length - 1] (List.getElem?_eq_getElem (by omega))).1
  omega

theorem holds_slice {n : Nat} (h : off + n ≤ file.length) : file.Holds off (file.slice off n) := by
  intro i b hb
  simp only [slice, List.getElem?_map, Option.map_eq_some_iff] at hb
  obtain ⟨j, hj, rfl⟩ := hb
  obtain ⟨hi, rfl⟩ := List.getElem?_eq_some_iff.mp hj
  simp only [List.length_range] at hi
  rw [List.getElem_range]
  exact ⟨by omega, rfl⟩

@[simp]
theorem length_slice (file : FileImage) (off n : Nat) : (file.slice off n).length = n := by
  simp [slice]

theorem slice_append (file : FileImage) (off m n : Nat) :
    file.slice off (m + n) = file.slice off m ++ file.slice (off + m) n := by
  simp only [slice, List.range_add, List.map_append, List.map_map]
  congr 1
  apply List.map_congr_left
  intro i _
  rw [Function.comp_apply, Nat.add_assoc]

theorem slice_congr {file' : FileImage} {n : Nat}
    (h : ∀ i, off ≤ i → i < off + n → file'.contents i = file.contents i) : file'.slice off n = file.slice off n := by
  apply List.map_congr_left
  intro i hi
  rw [List.mem_range] at hi
  exact h (off + i) (Nat.le_add_right _ _) (by omega)

theorem contents_of_slice {file' : FileImage} {n i : Nat} (h : file'.slice off n = file.slice off n) (hle : off ≤ i)
    (hlt : i < off + n) : file'.contents i = file.contents i := by
  have hget := congrArg (fun bs : List UInt8 => bs[i - off]?) h
  have hin : i - off < n := by omega
  simp only [slice, List.getElem?_map, List.getElem?_range hin, Option.map_some, Option.some.injEq] at hget
  rwa [Nat.add_sub_cancel' hle] at hget

end FileImage

end SearchEngine
