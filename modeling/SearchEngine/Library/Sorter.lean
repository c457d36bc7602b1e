import Mathlib.Data.List.Perm.Basic
import Mathlib.Data.List.Sort

namespace SearchEngine

variable {α : Type}

structure StrictWeak (less : α → α → Bool) : Prop where
  asymm : ∀ a b, less a b = true → less b a = false
  trans : ∀ a b c, less b a = false → less c b = false → less c a = false

/-- A sorting routine of the standard library. Elements that compare equal
come out in any order. -/
structure Sorter (less : α → α → Bool) where
  sort : List α → List α
  perm : ∀ l, (sort l).Perm l
  sorted : StrictWeak less → ∀ l, (sort l).Pairwise fun a b => less b a = false

def mergeSorter (less : α → α → Bool) : Sorter less where
  sort l := l.mergeSort fun a b => !less b a
  perm l := List.mergeSort_perm l _
  sorted h l := by
    have htrans : ∀ a b c, (!less b a) = true → (!less c b) = true → (!less c a) = true := by
      intro a b c
      simpa using h.trans a b c
    have htotal : ∀ a b, (!less b a || !less a b) = true := by
      intro a b
      cases hab : less b a with
      | false => rfl
      | true => rw [h.asymm b a hab]; rfl
    have hs : (l.mergeSort fun a b => !less b a).Pairwise fun a b => (!less b a) = true :=
      List.pairwise_mergeSort htrans htotal l
    simpa using hs

theorem pairwise_related {less : α → α → Bool} {R : α → α → Prop}
    (hR : ∀ a a' b b', R a a' → R b b' → less a b = less a' b') {l k : List α} (hrel : List.Forall₂ R l k)
    (hl : l.Pairwise fun a b => less b a = false) : k.Pairwise fun a b => less b a = false := by
  induction hrel with
  | nil => exact List.Pairwise.nil
  | cons ha hrest ih =>
      rw [List.pairwise_cons] at hl ⊢
      refine ⟨?_, ih hl.2⟩
      intro b hb
      obtain ⟨i, hi, rfl⟩ := List.mem_iff_getElem.mp hb
      have hi' := hrest.length_eq ▸ hi
      exact (hR _ _ _ _ (hrest.get hi' hi) ha).symm.trans (hl.1 _ (List.getElem_mem hi'))

/-- Sorting lists that are related up to their order. When elements that
compare equal are the same, nothing of the order is left in the results. -/
theorem Sorter.sort_related {less : α → α → Bool} (qsort qsort' : Sorter less) (hless : StrictWeak less)
    {R : α → α → Prop} (hR : ∀ a a' b b', R a a' → R b b' → less a b = less a' b') {l m l' : List α}
    (hrel : List.Forall₂ R l m) (hperm : m.Perm l')
    (hanti : ∀ a ∈ l', ∀ b ∈ l', less a b = false → less b a = false → a = b) :
    List.Forall₂ R (qsort.sort l) (qsort'.sort l') := by
  obtain ⟨k, hrel', hperm'⟩ := List.perm_comp_forall₂ (qsort.perm l) hrel
  have hk : k.Perm (qsort'.sort l') := (hperm'.trans hperm).trans (qsort'.perm l').symm
  have hsorted := pairwise_related hR hrel' (qsort.sorted hless l)
  have hsame : k = qsort'.sort l' := by
    apply hk.eq_of_pairwise _ hsorted (qsort'.sorted hless l')
    intro a b ha hb hab hba
    exact hanti a ((qsort'.perm l').mem_iff.mp (hk.mem_iff.mp ha)) b ((qsort'.perm l').mem_iff.mp hb) hba hab
  rwa [← hsame]

end SearchEngine
