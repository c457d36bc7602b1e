import Mathlib.Data.List.Basic
import Mathlib.Data.List.Nodup
import Mathlib.Logic.Function.Basic
import Mathlib.Order.Interval.Finset.Nat

/-! A heap of cells. A freed cell keeps its contents, and every call of free
on it is counted. -/

namespace SearchEngine

structure Heap (C : Type) where
  cells : List C
  frees : Nat → Nat

namespace Heap

variable {C : Type}

def empty : Heap C := ⟨[], fun _ => 0⟩

/-- The address of the next new cell. -/
def top (h : Heap C) : Nat := h.cells.length

def malloc (h : Heap C) (c : C) : Heap C := ⟨h.cells ++ [c], h.frees⟩

def load (h : Heap C) (a : Nat) : Option C := h.cells[a]?

def store (h : Heap C) (a : Nat) (c : C) : Heap C := ⟨h.cells.set a c, h.frees⟩

def free (h : Heap C) (a : Nat) : Heap C := ⟨h.cells, Function.update h.frees a (h.frees a + 1)⟩

def Live (h : Heap C) (a : Nat) : Prop := a < h.top ∧ h.frees a = 0

theorem lt_top {h : Heap C} {a : Nat} {c : C} (hload : h.load a = some c) : a < h.top :=
  (List.getElem?_eq_some_iff.mp hload).1

section Load

variable (h : Heap C)

@[simp]
theorem load_malloc_top (c : C) : (h.malloc c).load h.top = some c := by
  simp [load, malloc, top]

theorem load_malloc_of_lt (c : C) {a : Nat} (ha : a < h.top) : (h.malloc c).load a = h.load a :=
  List.getElem?_append_left ha

theorem load_store_self {a : Nat} (c : C) (ha : a < h.top) : (h.store a c).load a = some c :=
  List.getElem?_set_self ha

theorem load_store_of_ne {a b : Nat} (c : C) (hab : a ≠ b) : (h.store a c).load b = h.load b :=
  List.getElem?_set_ne hab

@[simp]
theorem load_free (a b : Nat) : (h.free a).load b = h.load b := rfl

end Load

section Frees

variable (h : Heap C)

@[simp]
theorem top_malloc (c : C) : (h.malloc c).top = h.top + 1 := by
  simp [top, malloc]

@[simp]
theorem top_store (a : Nat) (c : C) : (h.store a c).top = h.top :=
  List.length_set

@[simp]
theorem top_free (a : Nat) : (h.free a).top = h.top := rfl

@[simp]
theorem frees_malloc (c : C) : (h.malloc c).frees = h.frees := rfl

@[simp]
theorem frees_store (a : Nat) (c : C) : (h.store a c).frees = h.frees := rfl

@[simp]
theorem frees_free (a : Nat) : (h.free a).frees = Function.update h.frees a (h.frees a + 1) := rfl

end Frees

/-- The two heaps have the same cells allocated and freed. -/
structure SameAccount (h h' : Heap C) : Prop where
  top : h'.top = h.top
  frees : h'.frees = h.frees

theorem SameAccount.refl (h : Heap C) : SameAccount h h := ⟨rfl, rfl⟩

theorem SameAccount.trans {h₁ h₂ h₃ : Heap C} (h : SameAccount h₁ h₂) (h' : SameAccount h₂ h₃) :
    SameAccount h₁ h₃ :=
  ⟨h'.top.trans h.top, h'.frees.trans h.frees⟩

theorem sameAccount_store (h : Heap C) (a : Nat) (c : C) : SameAccount h (h.store a c) :=
  ⟨h.top_store a c, rfl⟩

/-- Every cell is either owned and never freed, or was freed exactly once. -/
structure Owns (h : Heap C) (owned : Nat → Prop) : Prop where
  split : ∀ a < h.top, (owned a ∧ h.frees a = 0) ∨ (¬owned a ∧ h.frees a = 1)
  beyond : ∀ a, h.top ≤ a → ¬owned a ∧ h.frees a = 0

section Owns

variable {h : Heap C} {owned owned' : Nat → Prop}

theorem Owns.live_iff (hown : h.Owns owned) (a : Nat) : owned a ↔ h.Live a := by
  rcases Nat.lt_or_ge a h.top with ha | ha
  · rcases hown.split a ha with ⟨ho, hf⟩ | ⟨ho, hf⟩
    · exact ⟨fun _ => ⟨ha, hf⟩, fun _ => ho⟩
    · exact ⟨fun h => absurd h ho, fun hlive => absurd (hlive.2.symm.trans hf) (by decide)⟩
  · exact ⟨fun ho => absurd ho (hown.beyond a ha).1, fun hlive => absurd hlive.1 (Nat.not_lt.mpr ha)⟩

theorem Owns.frees_le (hown : h.Owns owned) (a : Nat) : h.frees a ≤ 1 := by
  rcases Nat.lt_or_ge a h.top with ha | ha
  · rcases hown.split a ha with ⟨_, hf⟩ | ⟨_, hf⟩ <;> omega
  · have := (hown.beyond a ha).2
    omega

theorem Owns.congr (hown : h.Owns owned) (howned : ∀ a, owned a ↔ owned' a) : h.Owns owned' := by
  obtain rfl : owned = owned' := funext fun a => propext (howned a)
  exact hown

theorem Owns.of_sameAccount {h' : Heap C} (hown : h.Owns owned) (hsame : SameAccount h h') :
    h'.Owns owned where
  split := by
    intro a ha
    rw [hsame.frees]
    exact hown.split a (hsame.top ▸ ha)
  beyond := by
    intro a ha
    rw [hsame.frees]
    exact hown.beyond a (hsame.top ▸ ha)

theorem Owns.malloc (hown : h.Owns owned) (c : C) (howned : ∀ a, owned' a ↔ owned a ∨ a = h.top) :
    (h.malloc c).Owns owned' where
  split := by
    intro a ha
    rw [howned, frees_malloc]
    rw [top_malloc] at ha
    by_cases he : a = h.top
    · exact .inl ⟨.inr he, (hown.beyond a (by omega)).2⟩
    · simpa [he] using hown.split a (by omega)
  beyond := by
    intro a ha
    rw [top_malloc] at ha
    have hb := hown.beyond a (by omega)
    rw [howned]
    exact ⟨by simp [hb.1]; omega, hb.2⟩

theorem Owns.free (hown : h.Owns owned) {a₀ : Nat} (ha₀ : owned a₀)
    (howned : ∀ a, owned' a ↔ owned a ∧ a ≠ a₀) : (h.free a₀).Owns owned' where
  split := by
    intro a ha
    rw [howned, frees_free]
    by_cases he : a = a₀
    · subst he
      rcases hown.split a ha with ⟨_, hf⟩ | ⟨hno, _⟩
      · exact .inr ⟨by simp, by simp [hf]⟩
      · exact absurd ha₀ hno
    · simpa [he] using hown.split a ha
  beyond := by
    intro a ha
    have hb := hown.beyond a ha
    have hne : a ≠ a₀ := fun he => hb.1 (he ▸ ha₀)
    rw [howned, frees_free, Function.update_of_ne hne]
    exact ⟨fun h => hb.1 h.1, hb.2⟩

theorem Owns.foldl_free (hown : h.Owns owned) {as : List Nat} (hd : as.Nodup) (hsub : ∀ a ∈ as, owned a) :
    (as.foldl Heap.free h).Owns fun a => owned a ∧ a ∉ as := by
  induction as generalizing h owned with
  | nil => simpa using hown
  | cons b as ih =>
      obtain ⟨hb, hd⟩ := List.nodup_cons.mp hd
      have hone : (h.free b).Owns fun a => owned a ∧ a ≠ b := hown.free (hsub b (by simp)) fun a => Iff.rfl
      have hrest := ih hone hd fun a ha => ⟨hsub a (by simp [ha]), fun he => hb (he ▸ ha)⟩
      exact hrest.congr fun a => by simp [and_assoc]

theorem top_foldl_free (as : List Nat) (h : Heap C) : (as.foldl Heap.free h).top = h.top := by
  induction as generalizing h with
  | nil => rfl
  | cons b as ih => rw [List.foldl_cons, ih, top_free]

end Owns

/-- Only cells that were allocated have been freed. -/
def Fresh (h : Heap C) : Prop := ∀ a, h.top ≤ a → h.frees a = 0

theorem fresh_empty : (empty : Heap C).Fresh := fun _ _ => rfl

/-- The cells allocated between two states that were not freed. -/
def unfreed (h : Heap C) (start : Nat) : Finset Nat := {a ∈ Finset.Ico start h.top | h.frees a = 0}

def liveCount (h : Heap C) : Nat := (h.unfreed 0).card

/-- Since the first heap, cells were allocated and freed at most once, with n
of them left, and the cells of before were not touched. -/
structure Grown (h h' : Heap C) (n : Nat) : Prop where
  top : h.top ≤ h'.top
  before : ∀ a < h.top, h'.frees a = h.frees a
  since : ∀ a, h.top ≤ a → h'.frees a ≤ 1
  fresh : h'.Fresh
  left : (h'.unfreed h.top).card = n

section Grown

variable {h h' h'' : Heap C} {n m : Nat}

theorem Grown.refl (hfresh : h.Fresh) : Grown h h 0 where
  top := Nat.le_refl _
  before := fun _ _ => rfl
  since := fun a ha => by simp [hfresh a ha]
  fresh := hfresh
  left := by simp [unfreed]

theorem Grown.unfreed_before (hg : Grown h h' n) {start : Nat} (hstart : start ≤ h.top) :
    h'.unfreed start = h.unfreed start ∪ h'.unfreed h.top := by
  ext a
  have htop := hg.top
  simp only [unfreed, Finset.mem_filter, Finset.mem_Ico, Finset.mem_union]
  rcases Nat.lt_or_ge a h.top with ha | ha
  · rw [hg.before a ha]
    omega
  · omega

theorem Grown.card_unfreed (hg : Grown h h' n) {start : Nat} (hstart : start ≤ h.top) :
    (h'.unfreed start).card = (h.unfreed start).card + n := by
  have hdisjoint : Disjoint (h.unfreed start) (h'.unfreed h.top) := by
    rw [Finset.disjoint_left]
    intro a ha ha'
    simp only [unfreed, Finset.mem_filter, Finset.mem_Ico] at ha ha'
    omega
  rw [hg.unfreed_before hstart, Finset.card_union_of_disjoint hdisjoint, hg.left]

theorem Grown.liveCount_eq (hg : Grown h h' n) : h'.liveCount = h.liveCount + n :=
  hg.card_unfreed (Nat.zero_le _)

theorem Grown.trans (hg : Grown h h' n) (hg' : Grown h' h'' m) : Grown h h'' (n + m) where
  top := Nat.le_trans hg.top hg'.top
  before := by
    intro a ha
    rw [hg'.before a (Nat.lt_of_lt_of_le ha hg.top), hg.before a ha]
  since := by
    intro a ha
    rcases Nat.lt_or_ge a h'.top with ha' | ha'
    · rw [hg'.before a ha']
      exact hg.since a ha
    · exact hg'.since a ha'
  fresh := hg'.fresh
  left := by rw [hg'.card_unfreed hg.top, hg.left]

theorem Grown.malloc (hfresh : h.Fresh) (c : C) : Grown h (h.malloc c) 1 where
  top := by simp
  before := fun _ _ => rfl
  since := by
    intro a ha
    rw [frees_malloc, hfresh a ha]
    decide
  fresh := by
    intro a ha
    rw [top_malloc] at ha
    exact hfresh a (by omega)
  left := by
    have hone : (h.malloc c).unfreed h.top = {h.top} := by
      ext a
      simp only [unfreed, Finset.mem_filter, Finset.mem_Ico, top_malloc, frees_malloc, Finset.mem_singleton]
      constructor
      · rintro ⟨ha, _⟩
        omega
      · rintro rfl
        exact ⟨by omega, hfresh _ (Nat.le_refl _)⟩
    rw [hone, Finset.card_singleton]

/-- The cell that was allocated first is freed last. -/
theorem Grown.free (hfresh : h.Fresh) {c : C} (hg : Grown (h.malloc c) h' n) : Grown h (h'.free h.top) n := by
  have htop := hg.top
  rw [top_malloc] at htop
  have hzero : h'.frees h.top = 0 := by
    rw [hg.before h.top (by simp)]
    exact hfresh _ (Nat.le_refl _)
  have hother (a : Nat) (ha : a ≠ h.top) : (h'.free h.top).frees a = h'.frees a := by
    rw [frees_free, Function.update_of_ne ha]
  have hself : (h'.free h.top).frees h.top = 1 := by
    rw [frees_free, Function.update_self, hzero]
  refine ⟨by simpa using by omega, ?_, ?_, ?_, ?_⟩
  · intro a ha
    rw [hother a (by omega), hg.before a (by rw [top_malloc]; omega), frees_malloc]
  · intro a ha
    by_cases he : a = h.top
    · rw [he, hself]
    · rw [hother a he]
      exact hg.since a (by rw [top_malloc]; omega)
  · intro a ha
    rw [top_free] at ha
    rw [hother a (by omega)]
    exact hg.fresh a ha
  · have hsame : (h'.free h.top).unfreed h.top = h'.unfreed (h.malloc c).top := by
      ext a
      simp only [unfreed, Finset.mem_filter, Finset.mem_Ico, top_free, top_malloc]
      by_cases he : a = h.top
      · rw [he, hself]
        omega
      · rw [hother a he]
        omega
    rw [hsame, hg.left]

/-- Nothing is left exactly when every new cell was freed once. -/
theorem Grown.freed_once_iff (hg : Grown h h' n) :
    (∀ a, h.top ≤ a → a < h'.top → h'.frees a = 1) ↔ n = 0 := by
  rw [← hg.left, Finset.card_eq_zero, Finset.eq_empty_iff_forall_notMem]
  simp only [unfreed, Finset.mem_filter, Finset.mem_Ico]
  constructor
  · rintro hall a ⟨⟨ha, ha'⟩, hzero⟩
    have := hall a ha ha'
    omega
  · intro hnone a ha ha'
    have hne := hnone a
    have hle := hg.since a ha
    omega

end Grown

end Heap

end SearchEngine
