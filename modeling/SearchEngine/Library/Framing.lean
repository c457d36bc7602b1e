import Mathlib.Data.List.Infix

/-! A stream cut into segments that end with a delimiter. -/

namespace SearchEngine.Framing

variable {α : Type} [BEq α] [LawfulBEq α]

def find (pat : List α) : List α → Option Nat
  | [] => if pat.isEmpty then some 0 else none
  | a :: s => if pat.isPrefixOf (a :: s) then some 0 else (find pat s).map (· + 1)

/-- The first segment, its delimiter included, and what follows it. -/
def frame (pat s : List α) : Option (List α × List α) :=
  (find pat s).map fun i => (s.take (i + pat.length), s.drop (i + pat.length))

variable {pat s : List α}

theorem find_le {i : Nat} (h : find pat s = some i) : i + pat.length ≤ s.length := by
  induction s generalizing i with
  | nil =>
      simp only [find] at h
      split at h
      · next hp =>
        obtain rfl := Option.some.inj h
        simp [List.isEmpty_iff.mp hp]
      · cases h
  | cons a s ih =>
      simp only [find] at h
      split at h
      · next hp =>
        obtain rfl := Option.some.inj h
        have hle := (List.isPrefixOf_iff_prefix.mp hp).length_le
        omega
      · obtain ⟨j, hj, rfl⟩ := Option.map_eq_some_iff.mp h
        have hle := ih hj
        simp only [List.length_cons]
        omega

theorem find_append {i : Nat} (h : find pat s = some i) (t : List α) : find pat (s ++ t) = some i := by
  induction s generalizing i with
  | nil =>
      have hp : pat = [] := by
        have hle := find_le h
        exact List.eq_nil_of_length_eq_zero (by simp only [List.length_nil] at hle; omega)
      subst hp
      obtain rfl : 0 = i := by simpa [find] using h
      cases t <;> simp [find]
  | cons a s ih =>
      have hlen := find_le h
      simp only [find, List.cons_append] at h ⊢
      split at h
      · next hp =>
        obtain rfl := Option.some.inj h
        have hpre := (List.isPrefixOf_iff_prefix.mp hp).trans (List.prefix_append (a :: s) t)
        exact if_pos (List.isPrefixOf_iff_prefix.mpr hpre)
      · next hp =>
        obtain ⟨j, hj, rfl⟩ := Option.map_eq_some_iff.mp h
        have hnot : ¬pat.isPrefixOf (a :: (s ++ t)) = true := fun hpre =>
          hp (List.isPrefixOf_iff_prefix.mpr (List.prefix_of_prefix_length_le
            (List.isPrefixOf_iff_prefix.mp hpre) (List.prefix_append (a :: s) t) (by omega)))
        rw [if_neg hnot, ih hj]
        rfl

theorem frame_eq_some {seg rest : List α} (h : frame pat s = some (seg, rest)) :
    s = seg ++ rest ∧ pat.length ≤ seg.length := by
  obtain ⟨i, hi, hs⟩ := Option.map_eq_some_iff.mp h
  have hle := find_le hi
  obtain ⟨rfl, rfl⟩ : s.take (i + pat.length) = seg ∧ s.drop (i + pat.length) = rest := by simpa using hs
  exact ⟨(List.take_append_drop _ s).symm, by rw [List.length_take]; omega⟩

theorem frame_append {seg rest : List α} (h : frame pat s = some (seg, rest)) (t : List α) :
    frame pat (s ++ t) = some (seg, rest ++ t) := by
  obtain ⟨i, hi, hs⟩ := Option.map_eq_some_iff.mp h
  have hle := find_le hi
  obtain ⟨rfl, rfl⟩ : s.take (i + pat.length) = seg ∧ s.drop (i + pat.length) = rest := by simpa using hs
  simp [frame, find_append hi, List.take_append_of_le_length hle, List.drop_append_of_le_length hle]

def segments {α : Type} [BEq α] [LawfulBEq α] (pat : List α) (hpat : pat ≠ []) (s : List α) : List (List α) :=
  match _h : frame pat s with
  | none => []
  | some (seg, rest) => seg :: segments pat hpat rest
termination_by s.length
decreasing_by
  obtain ⟨hs, hle⟩ := frame_eq_some _h
  have hpos := List.length_pos_of_ne_nil hpat
  have hlen := congrArg List.length hs
  simp only [List.length_append] at hlen
  omega

theorem segments_of_none {hpat : pat ≠ []} (h : frame pat s = none) : segments pat hpat s = [] := by
  rw [segments]
  split
  · rfl
  · next hs => simp [h] at hs

theorem segments_of_some {hpat : pat ≠ []} {seg rest : List α} (h : frame pat s = some (seg, rest)) :
    segments pat hpat s = seg :: segments pat hpat rest := by
  rw [segments]
  split
  · next hs => simp [h] at hs
  · next hs =>
    obtain ⟨rfl, rfl⟩ : seg = _ ∧ rest = _ := by simpa [h] using hs
    rfl

end SearchEngine.Framing
