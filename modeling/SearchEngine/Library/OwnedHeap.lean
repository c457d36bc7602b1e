import SearchEngine.Library.Heap
import Mathlib.Algebra.BigOperators.Group.List.Basic
import Mathlib.Algebra.Order.Group.Multiset
import Mathlib.Data.Finset.Card
import Mathlib.Tactic.Abel

/-! Programs over a heap in which every cell has one owner, followed next to a
run that has no heap. -/

namespace SearchEngine

/-- A pointer to a cell, with what the cell holds. -/
structure Ptr (α : Type) where
  addr : Nat
  val : α
  deriving DecidableEq

namespace Ptr

variable {α β : Type}

def store (p : Ptr α) (x : β) : Ptr β := ⟨p.addr, x⟩

@[simp]
theorem val_store (p : Ptr α) (x : β) : (p.store x).val = x := rfl

/-- The one cell a pointer leads to, as an owner counts it. -/
def cell {C : Type} (p : Ptr α) (c : C) : Multiset (Nat × C) := {(p.addr, c)}

@[simp]
theorem cell_store {C : Type} (p : Ptr α) (x : β) (c : C) : (p.store x).cell c = p.cell c := rfl

@[simp]
theorem addrs_cell {C : Type} (p : Ptr α) (c : C) : (p.cell c).map Prod.fst = {p.addr} := rfl

end Ptr

namespace Heap

variable {C : Type} {h : Heap C} {a : Nat} {c : C} {cells : Multiset (Nat × C)}

instance (h : Heap C) (a : Nat) : Decidable (h.Live a) := inferInstanceAs (Decidable (_ ∧ _))

/-- These are the live cells, each once, and what they were allocated for. -/
structure Holds (h : Heap C) (cells : Multiset (Nat × C)) : Prop where
  distinct : (cells.map Prod.fst).Nodup
  owns : h.Owns fun a => a ∈ cells.map Prod.fst
  loads : ∀ c ∈ cells, h.load c.1 = some c.2

theorem holds_empty : (empty : Heap C).Holds 0 where
  distinct := Multiset.nodup_zero
  owns := ⟨fun _ ha => absurd ha (Nat.not_lt_zero _), fun _ _ => ⟨Multiset.notMem_zero _, rfl⟩⟩
  loads _ hc := absurd hc (Multiset.notMem_zero _)

theorem Holds.live (hold : h.Holds cells) (hmem : a ∈ cells.map Prod.fst) : h.Live a :=
  (hold.owns.live_iff a).mp hmem

theorem Holds.malloc (hold : h.Holds cells) (c : C) : (h.malloc c).Holds ({(h.top, c)} + cells) where
  distinct := by
    rw [Multiset.singleton_add, Multiset.map_cons, Multiset.nodup_cons]
    exact ⟨(hold.owns.beyond h.top (Nat.le_refl _)).1, hold.distinct⟩
  owns := hold.owns.malloc c fun a => by
    rw [Multiset.singleton_add, Multiset.map_cons, Multiset.mem_cons, or_comm]
  loads := by
    intro x hx
    rw [Multiset.singleton_add, Multiset.mem_cons] at hx
    rcases hx with rfl | hx
    · exact h.load_malloc_top c
    · rw [h.load_malloc_of_lt c (lt_top (hold.loads x hx))]
      exact hold.loads x hx

theorem Holds.free (hold : h.Holds ({(a, c)} + cells)) : (h.free a).Holds cells := by
  rw [Multiset.singleton_add] at hold
  have hdistinct := hold.distinct
  rw [Multiset.map_cons, Multiset.nodup_cons] at hdistinct
  refine ⟨hdistinct.2, hold.owns.free (by simp) ?_, ?_⟩
  · intro b
    rw [Multiset.map_cons, Multiset.mem_cons]
    constructor
    · intro hb
      refine ⟨.inr hb, ?_⟩
      rintro rfl
      exact hdistinct.1 hb
    · rintro ⟨rfl | hb, hne⟩
      · exact absurd rfl hne
      · exact hb
  · intro x hx
    exact hold.loads x (Multiset.mem_cons_of_mem hx)

/-- Of cells that were all allocated for one thing: which are still there, and
that every other one was freed once. -/
theorem Holds.uniform (hold : h.Holds cells) (hall : ∀ x ∈ cells, x.2 = c) :
    ∃ left : Finset Nat, left.card = cells.card ∧ (∀ a ∈ left, h.load a = some c) ∧
      ∀ a < h.top, h.frees a = if a ∈ left then 0 else 1 := by
  refine ⟨(cells.map Prod.fst).toFinset, ?_, ?_, ?_⟩
  · rw [Multiset.toFinset_card_of_nodup hold.distinct, Multiset.card_map]
  · intro a ha
    obtain ⟨x, hx, rfl⟩ := Multiset.mem_map.mp (Multiset.mem_toFinset.mp ha)
    rw [hold.loads x hx, hall x hx]
  · intro a ha
    simp only [Multiset.mem_toFinset]
    rcases hold.owns.split a ha with ⟨hmem, hfrees⟩ | ⟨hmem, hfrees⟩
    · rw [if_pos hmem, hfrees]
    · rw [if_neg hmem, hfrees]

end Heap

/-- A program that allocates and frees cells. -/
abbrev HeapProgram (C ε : Type) := StateT (Heap C) (Except ε)

namespace HeapProgram

variable {C ε α β γ δ : Type}

def malloc (c : C) (x : α) : HeapProgram C ε (Ptr α) := fun h => .ok (⟨h.top, x⟩, h.malloc c)

/-- Following a pointer to a cell that was freed is a fault. -/
def deref (bad : ε) (p : Ptr α) : HeapProgram C ε α := fun h =>
  if h.Live p.addr then .ok (p.val, h) else .error bad

/-- So is freeing it again. -/
def free (bad : ε) (p : Ptr α) : HeapProgram C ε Unit := fun h =>
  if h.Live p.addr then .ok ((), h.free p.addr) else .error bad

def lift (x : Except ε α) : HeapProgram C ε α := fun h => x.map fun a => (a, h)

@[simp]
theorem lift_ok_bind (a : α) (f : α → HeapProgram C ε γ) : lift (.ok a) >>= f = f a := rfl

/-- Both end with the same fault, or both return. -/
inductive Outcome (post : α → β → Multiset (Nat × C) → Prop) : Except ε (α × Heap C) → Except ε β → Prop
  | ok {a : α} {b : β} {h : Heap C} {cells : Multiset (Nat × C)} (hold : h.Holds cells) (hpost : post a b cells) :
      Outcome post (.ok (a, h)) (.ok b)
  | error (e : ε) : Outcome post (.error e) (.error e)

theorem Outcome.mono {post post' : α → β → Multiset (Nat × C) → Prop} {x : Except ε (α × Heap C)} {y : Except ε β}
    (h : Outcome post x y) (hpost : ∀ a b cells, post a b cells → post' a b cells) : Outcome post' x y := by
  cases h with
  | ok hold hmid => exact .ok hold (hpost _ _ _ hmid)
  | error e => exact .error e

section Outcome

variable {post : α → β → Multiset (Nat × C) → Prop} {x : Except ε (α × Heap C)} {y : Except ε β}

theorem Outcome.error_iff (h : Outcome post x y) (e : ε) : x = .error e ↔ y = .error e := by
  cases h with
  | ok hold hpost => simp
  | error e' => simp

theorem Outcome.of_ok (h : Outcome post x y) {a : α} {heap : Heap C} (hx : x = .ok (a, heap)) :
    ∃ b cells, heap.Holds cells ∧ post a b cells := by
  subst hx
  cases h with
  | ok hold hpost => exact ⟨_, _, hold, hpost⟩

end Outcome

/-- Started where exactly these cells are live, the program ends as the run
does that has no heap. -/
def Follows (cells : Multiset (Nat × C)) (p : HeapProgram C ε α) (r : Except ε β)
    (post : α → β → Multiset (Nat × C) → Prop) : Prop :=
  ∀ h : Heap C, h.Holds cells → Outcome post (p.run h) r

section Follows

variable {cells rest : Multiset (Nat × C)} {c : C} {bad : ε} {p : HeapProgram C ε α} {r : Except ε β}
  {f : α → HeapProgram C ε γ} {g : β → Except ε δ} {mid : α → β → Multiset (Nat × C) → Prop}
  {post post' : γ → δ → Multiset (Nat × C) → Prop}

theorem Follows.pure {a : γ} {b : δ} (hpost : post a b cells) : Follows (ε := ε) cells (pure a) (.ok b) post := by
  intro h hold
  exact .ok hold hpost

theorem Follows.fail (e : ε) : Follows cells (lift (.error e)) (.error e) post := by
  intro h hold
  exact .error e

theorem Follows.bind (hp : Follows cells p r mid)
    (hf : ∀ a b cells', mid a b cells' → Follows cells' (f a) (g b) post) :
    Follows cells (p >>= f) (r >>= g) post := by
  intro h hold
  have hrun := hp h hold
  rw [StateT.run_bind]
  cases hx : p.run h with
  | error e =>
      rw [hx] at hrun
      cases hrun
      exact .error e
  | ok ah =>
      rw [hx] at hrun
      cases hrun with
      | ok hold' hpost => exact hf _ _ _ hpost _ hold'

theorem Follows.mono {q : HeapProgram C ε γ} {s : Except ε δ} (hq : Follows cells q s post)
    (hpost : ∀ a b cells', post a b cells' → post' a b cells') : Follows cells q s post' := by
  intro h hold
  exact (hq h hold).mono hpost

/-- What the program still does when the run has ended. -/
theorem Follows.after {post : γ → β → Multiset (Nat × C) → Prop} (hp : Follows cells p r mid)
    (hf : ∀ a b cells', mid a b cells' → Follows cells' (f a) (.ok b) post) : Follows cells (p >>= f) r post := by
  have h := Follows.bind (g := Except.ok) hp hf
  rwa [show r >>= Except.ok = r from bind_pure r] at h

/-- What is known of the run itself is known of what it returns. -/
theorem Follows.returned (hp : Follows cells p r mid) :
    Follows cells p r fun a b cells' => mid a b cells' ∧ r = .ok b := by
  intro h hold
  have hrun := hp h hold
  cases hx : p.run h with
  | error e =>
      rw [hx] at hrun
      cases hrun
      exact .error e
  | ok ah =>
      rw [hx] at hrun
      cases hrun with
      | ok hold' hmid => exact .ok hold' ⟨hmid, rfl⟩

/-- A step of the program alone. -/
theorem Follows.silent {u : β} {s : Except ε δ} (hp : Follows cells p (.ok u) mid)
    (hf : ∀ a cells', mid a u cells' → Follows cells' (f a) s post) : Follows cells (p >>= f) s post := by
  refine Follows.bind (g := fun _ => s) hp.returned ?_
  rintro a b cells' ⟨hmid, hb⟩
  obtain rfl : u = b := Except.ok.inj hb
  exact hf a cells' hmid

/-- A step of the program that the run makes too, on the same data without its
addresses. -/
theorem Follows.lift {x : Except ε α} (erase : α → β) (hx : r = erase <$> x)
    (hf : ∀ a, x = .ok a → Follows cells (f a) (g (erase a)) post) :
    Follows cells (lift x >>= f) (r >>= g) post := by
  subst hx
  cases x with
  | error e =>
      intro h hold
      exact .error e
  | ok a => exact hf a rfl

theorem Follows.malloc {x : α} {f : Ptr α → HeapProgram C ε γ} {s : Except ε δ}
    (hf : ∀ p : Ptr α, p.val = x → Follows (p.cell c + cells) (f p) s post) :
    Follows cells (malloc c x >>= f) s post := by
  intro h hold
  exact hf ⟨h.top, x⟩ rfl (h.malloc c) (hold.malloc c)

theorem Follows.deref {x : Ptr α} {s : Except ε δ} (hmem : x.addr ∈ cells.map Prod.fst)
    (hf : Follows cells (f x.val) s post) : Follows cells (deref bad x >>= f) s post := by
  intro h hold
  have hrun : (HeapProgram.deref bad x).run h = .ok (x.val, h) := if_pos (hold.live hmem)
  rw [StateT.run_bind, hrun]
  exact hf h hold

theorem Follows.free (c : C) (rest : Multiset (Nat × C)) {x : Ptr α} {f : Unit → HeapProgram C ε γ} {s : Except ε δ}
    (hcells : cells = x.cell c + rest) (hf : Follows rest (f ()) s post) :
    Follows cells (free bad x >>= f) s post := by
  intro h hold
  subst hcells
  have hmem : x.addr ∈ (x.cell c + rest).map Prod.fst := by simp
  have hrun : (HeapProgram.free bad x).run h = .ok ((), h.free x.addr) := if_pos (hold.live hmem)
  rw [StateT.run_bind, hrun]
  exact hf (h.free x.addr) hold.free

end Follows

/-- The program frees these cells, and no others. -/
def Frees (cells : Multiset (Nat × C)) (p : HeapProgram C ε Unit) : Prop :=
  ∀ rest, Follows (cells + rest) p (.ok ()) fun _ (_ : Unit) held => held = rest

section Frees

variable {cells cells' rest : Multiset (Nat × C)} {c : C} {bad : ε} {p q : HeapProgram C ε Unit}

theorem Follows.frees {f : Unit → HeapProgram C ε γ} {s : Except ε δ} {post : γ → δ → Multiset (Nat × C) → Prop}
    (rest : Multiset (Nat × C)) (hp : Frees cells' p) (hcells : cells = cells' + rest)
    (hf : Follows rest (f ()) s post) : Follows cells (p >>= f) s post := by
  subst hcells
  refine Follows.silent (hp rest) ?_
  rintro ⟨⟩ held rfl
  exact hf

theorem frees_nothing : Frees (0 : Multiset (Nat × C)) (pure () : HeapProgram C ε Unit) := by
  intro rest
  exact Follows.pure (zero_add rest)

theorem frees_cell (x : Ptr α) : Frees (x.cell c) (free bad x) := by
  intro rest
  rw [← bind_pure (free bad x)]
  exact Follows.free c rest rfl (Follows.pure rfl)

theorem Frees.seq (hp : Frees cells p) (hq : Frees cells' q) : Frees (cells + cells') (p >>= fun _ => q) := by
  intro rest
  exact Follows.frees _ hp (add_assoc _ _ _) (hq rest)

theorem Frees.deref {x : Ptr α} {f : α → HeapProgram C ε Unit} (hmem : x.addr ∈ cells.map Prod.fst)
    (hf : Frees cells (f x.val)) : Frees cells (deref bad x >>= f) := by
  intro rest
  refine Follows.deref ?_ (hf rest)
  rw [Multiset.map_add]
  exact Multiset.mem_add.mpr (.inl hmem)

theorem Frees.forM {cellsOf : α → Multiset (Nat × C)} {f : α → HeapProgram C ε Unit}
    (hf : ∀ x, Frees (cellsOf x) (f x)) (xs : List α) : Frees (xs.map cellsOf).sum (xs.forM f) := by
  induction xs with
  | nil => exact frees_nothing
  | cons x xs ih =>
      rw [List.map_cons, List.sum_cons]
      exact (hf x).seq ih

end Frees

/-- What a value with addresses stands for, the cells that it owns, and what is
always true of it. -/
structure Owner (C α β : Type) where
  erase : α → β
  cells : α → Multiset (Nat × C)
  Good : α → Prop

/-- A call that hands back what the run hands back, and the cells of others as
they were. -/
structure Owner.Post (o : Owner C α β) (rest : Multiset (Nat × C)) (a : α) (b : β) (held : Multiset (Nat × C)) :
    Prop where
  same : b = o.erase a
  good : o.Good a
  held : held = o.cells a + rest

end HeapProgram

end SearchEngine
