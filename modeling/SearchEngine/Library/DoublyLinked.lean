import SearchEngine.Library.Heap
import Mathlib.Data.List.Nodup

/-! Doubly linked segments in a heap. -/

namespace SearchEngine.DoublyLinked

structure Cell (α : Type) where
  payload : α
  next : Option Nat
  prev : Option Nat
  deriving DecidableEq

variable {α : Type}

/-- Where a segment begins, given what follows it. -/
def first : List (Nat × α) → Option Nat → Option Nat
  | [], q => q
  | n :: _, _ => some n.1

/-- Where a segment ends, given what stands before it. -/
def last (p : Option Nat) : List (Nat × α) → Option Nat
  | [] => p
  | n :: ns => last (some n.1) ns

/-- The cells of a segment between p and q, each pointing at its neighbours. -/
def Linked (h : Heap (Cell α)) : Option Nat → List (Nat × α) → Option Nat → Prop
  | _, [], _ => True
  | p, n :: ns, q => h.load n.1 = some ⟨n.2, first ns q, p⟩ ∧ Linked h (some n.1) ns q

abbrev addrs (ns : List (Nat × α)) : List Nat := ns.map Prod.fst

@[simp]
theorem first_cons (n : Nat × α) (ns : List (Nat × α)) (q : Option Nat) : first (n :: ns) q = some n.1 := rfl

@[simp]
theorem first_append (xs ys : List (Nat × α)) (q : Option Nat) : first (xs ++ ys) q = first xs (first ys q) := by
  cases xs <;> rfl

@[simp]
theorem last_append (p : Option Nat) (xs ys : List (Nat × α)) : last p (xs ++ ys) = last (last p xs) ys := by
  induction xs generalizing p with
  | nil => rfl
  | cons n xs ih => exact ih (some n.1)

theorem first_eq_none {ns : List (Nat × α)} : first ns none = none ↔ ns = [] := by
  cases ns <;> simp [first]

theorem last_mem {a b : Nat} {ns : List (Nat × α)} (h : last (some a) ns = some b) : b = a ∨ b ∈ addrs ns := by
  induction ns generalizing a with
  | nil => exact .inl (Option.some.inj h).symm
  | cons n ns ih => exact .inr (List.mem_cons.mpr (ih h))

theorem first_concat (ns : List (Nat × α)) (n : Nat × α) (q : Option Nat) :
    ∃ a ∈ addrs (ns ++ [n]), first (ns ++ [n]) q = some a := by
  cases ns with
  | nil => exact ⟨n.1, by simp, rfl⟩
  | cons m ns => exact ⟨m.1, by simp, rfl⟩

theorem last_ne_none (a : Nat) (ns : List (Nat × α)) : last (some a) ns ≠ none := by
  induction ns generalizing a with
  | nil => simp [last]
  | cons n ns ih => exact ih n.1

theorem last_eq_none {ns : List (Nat × α)} : last none ns = none ↔ ns = [] := by
  cases ns with
  | nil => simp [last]
  | cons n ns => simpa [last] using last_ne_none n.1 ns

section

variable {h h' : Heap (Cell α)} {p q : Option Nat} {xs ys ns : List (Nat × α)} {n : Nat × α}

theorem linked_append :
    Linked h p (xs ++ ys) q ↔ Linked h p xs (first ys q) ∧ Linked h (last p xs) ys q := by
  induction xs generalizing p with
  | nil => simp [Linked, last]
  | cons n xs ih => simp [Linked, last, ih, and_assoc]

/-- Changes elsewhere in the heap leave a segment linked. -/
theorem Linked.frame (hl : Linked h p ns q) (hsame : ∀ a ∈ addrs ns, h'.load a = h.load a) : Linked h' p ns q := by
  induction ns generalizing p with
  | nil => trivial
  | cons n ns ih =>
      refine ⟨by rw [hsame n.1 (by simp), hl.1], ih hl.2 fun a ha => hsame a ?_⟩
      exact List.mem_cons_of_mem _ ha

theorem Linked.lt_top (hl : Linked h p ns q) : ∀ a ∈ addrs ns, a < h.top := by
  induction ns generalizing p with
  | nil => simp
  | cons n ns ih =>
      intro a ha
      rcases List.mem_cons.mp ha with rfl | ha
      · exact Heap.lt_top hl.1
      · exact ih hl.2 a ha

theorem Linked.store (hl : Linked h p ns q) {a : Nat} (ha : a ∉ addrs ns) (c : Cell α) :
    Linked (h.store a c) p ns q :=
  hl.frame fun _ hb => h.load_store_of_ne c fun he => ha (he ▸ hb)

theorem Linked.malloc (hl : Linked h p ns q) (c : Cell α) : Linked (h.malloc c) p ns q :=
  hl.frame fun _ hb => h.load_malloc_of_lt c (hl.lt_top _ hb)

theorem Linked.free (hl : Linked h p ns q) (a : Nat) : Linked (h.free a) p ns q :=
  hl.frame fun _ _ => rfl

/-- Writing the previous pointer of the first cell. -/
theorem Linked.setPrev (hl : Linked h p (n :: ns) q) (hn : n.1 ∉ addrs ns) (p' : Option Nat) :
    Linked (h.store n.1 ⟨n.2, first ns q, p'⟩) p' (n :: ns) q :=
  ⟨h.load_store_self _ (Heap.lt_top hl.1), hl.2.store hn _⟩

/-- Writing the next pointer of the last cell. -/
theorem Linked.setNext (hl : Linked h p (ns ++ [n]) q) (hn : n.1 ∉ addrs ns) (q' : Option Nat) :
    Linked (h.store n.1 ⟨n.2, q', last p ns⟩) p (ns ++ [n]) q' := by
  obtain ⟨hns, hlast⟩ := linked_append.mp hl
  exact linked_append.mpr ⟨hns.store hn _, h.load_store_self _ (Heap.lt_top hlast.1), trivial⟩

/-- The i-th cell of a whole list, with its neighbours. -/
theorem Linked.getElem? (hl : Linked h p ns q) {i : Nat} (hi : ns[i]? = some n) :
    h.load n.1 = some ⟨n.2, ((addrs ns)[i + 1]?).or q, if i = 0 then p else (addrs ns)[i - 1]?⟩ := by
  induction ns generalizing p i with
  | nil => simp at hi
  | cons m ns ih =>
      cases i with
      | zero =>
          obtain rfl : m = n := by simpa using hi
          rw [hl.1]
          cases ns <;> simp [first]
      | succ i =>
          rw [ih hl.2 (by simpa using hi)]
          cases i <;> simp

end

theorem last_eq_getLast? (ns : List (Nat × α)) (p : Option Nat) : last p ns = ((addrs ns).getLast?).or p := by
  induction ns generalizing p with
  | nil => rfl
  | cons n ns ih =>
      rw [last, ih]
      cases ns with
      | nil => rfl
      | cons m ns => simp [List.getLast?_cons]

/-- The cells that a walk along the next pointers can come to. -/
inductive Reaches (h : Heap (Cell α)) : Option Nat → Nat → Prop
  | here (a : Nat) : Reaches h (some a) a
  | step {a b : Nat} {c : Cell α} (hload : h.load a = some c) (hnext : Reaches h c.next b) :
      Reaches h (some a) b

theorem reaches_iff {h : Heap (Cell α)} {p : Option Nat} {ns : List (Nat × α)} (hl : Linked h p ns none) (b : Nat) :
    Reaches h (first ns none) b ↔ b ∈ addrs ns := by
  induction ns generalizing p with
  | nil =>
      constructor
      · intro hr
        cases hr
      · simp
  | cons n ns ih =>
      rw [addrs, List.map_cons, List.mem_cons, ← ih hl.2]
      constructor
      · intro hr
        cases hr with
        | here => exact .inl rfl
        | step hload hnext =>
            rw [hl.1] at hload
            cases hload
            exact .inr hnext
      · rintro (rfl | hr)
        · exact .here _
        · exact .step hl.1 hr

end SearchEngine.DoublyLinked
