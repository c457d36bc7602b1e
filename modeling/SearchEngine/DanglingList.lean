import SearchEngine.PointerList

/-! Lists with the blocks of their nodes, as LinkedList.c handles them:
LinkedList_Append frees the node that it has just linked in. -/

namespace SearchEngine

open DoublyLinked

/-- A node, and whether its block is still allocated. -/
structure BlockNode (α : Type) where
  payload : α
  live : Bool
  deriving DecidableEq

structure DanglingList (α : Type) where
  nodes : List (BlockNode α)
  deriving DecidableEq

namespace DanglingList

variable {α σ : Type}

def allocate : DanglingList α := ⟨[]⟩

def numElements (l : DanglingList α) : Nat := l.nodes.length

/-- Following a pointer to a node whose block was freed is a bad access. -/
def follow (n : BlockNode α) : Run α := if n.live then .ok n.payload else .error .badAccess

/-- The new node is linked in front of the old head, which is written to. -/
def push (l : DanglingList α) (payload : α) : Run (DanglingList α) := do
  match l.nodes with
  | [] => return ⟨[⟨payload, true⟩]⟩
  | head :: rest =>
      let _ ← follow head
      return ⟨⟨payload, true⟩ :: head :: rest⟩

/-- The new node is linked behind the old tail, which is written to, and then
freed. -/
def append (l : DanglingList α) (payload : α) : Run (DanglingList α) := do
  match l.nodes.getLast? with
  | none => return ⟨[⟨payload, false⟩]⟩
  | some tail =>
      let _ ← follow tail
      return ⟨l.nodes ++ [⟨payload, false⟩]⟩

/-- A loop over a list with an iterator, which reads each node. -/
def walk (body : σ → α → Run σ) (s : σ) (l : DanglingList α) : Run σ :=
  l.nodes.foldlM (fun s n => do body s (← follow n)) s

def elements (l : DanglingList α) : Run (List α) := l.walk (fun ps p => return ps ++ [p]) []

/-- The payloads are read from the nodes before they are compared. -/
def sort (l : DanglingList α) (ascending : Bool) (comparator : α → α → Int) : Run (DanglingList α) :=
  if l.numElements < 2 then .ok l
  else do
    match BubbleSort.sort (LinkedList.exchanges ascending comparator) (l.numElements * l.numElements + 1)
      (← l.elements) with
    | none => .error .outOfFuel
    | some ps => return ⟨List.zipWith (fun n p => ⟨p, n.live⟩) l.nodes ps⟩

/-- No block of the list's nodes is left. -/
def AllFreed (l : DanglingList α) : Prop := ∀ n ∈ l.nodes, n.live = false

theorem allFreed_allocate : (allocate : DanglingList α).AllFreed := fun _ hn => nomatch hn

section

variable {l l' : DanglingList α} {p : α}

theorem follow_freed {n : BlockNode α} (h : n.live = false) : follow n = .error .badAccess := by
  simp [follow, h]

theorem append_nil (h : l.nodes = []) (p : α) : l.append p = .ok ⟨[⟨p, false⟩]⟩ := by
  simp [append, h]

/-- A second append writes to the node that the first one freed. -/
theorem append_freed (hl : l.AllFreed) (hne : l.nodes ≠ []) (p : α) : l.append p = .error .badAccess := by
  have hlast := List.getLast?_eq_some_getLast hne
  have hfreed := follow_freed (hl _ (List.getLast_mem hne))
  simp only [append, hlast, hfreed, Run.error_bind]

theorem walk_nil (h : l.nodes = []) (body : σ → α → Run σ) (s : σ) : l.walk body s = .ok s := by
  simp [walk, h]

theorem walk_freed (hl : l.AllFreed) (hne : l.nodes ≠ []) (body : σ → α → Run σ) (s : σ) :
    l.walk body s = .error .badAccess := by
  obtain ⟨n, rest, hnodes⟩ := List.exists_cons_of_ne_nil hne
  have hfreed := follow_freed (hl n (by simp [hnodes]))
  simp only [walk, hnodes, List.foldlM_cons, hfreed, Run.error_bind]

end

end DanglingList

namespace PointerList

variable {α : Type} {l l' : PointerList α} {ns : List (Addr × α)} {d : DanglingList α} {x : α}

/-- The nodes of a pointer list with what its heap says about their blocks. -/
def blocks (l : PointerList α) (ns : List (Addr × α)) : DanglingList α :=
  ⟨ns.map fun n => ⟨n.2, decide (l.heap.frees n.1 = 0)⟩⟩

theorem blocks_congr (h : ∀ n ∈ ns, l'.heap.frees n.1 = l.heap.frees n.1) :
    (l'.blocks ns).nodes = (l.blocks ns).nodes :=
  List.map_congr_left fun n hn => by rw [h n hn]

/-- Where no freed node is touched, a push has the effect on the blocks that
the pointers and the heap say. -/
theorem push_blocks (h : l.Shape ns) (hfresh : l.heap.Fresh) (hpush : l.push x = .ok l')
    (hd : (l.blocks ns).push x = .ok d) : ∃ ns', l'.Shape ns' ∧ l'.blocks ns' = d := by
  obtain ⟨l₁, hok, hshape, hsame⟩ := push_spec h x
  obtain rfl : l₁ = l' := by
    rw [hok] at hpush
    obtain ⟨_, _, he⟩ := Run.bind_eq_ok.mp hpush
    exact Except.ok.inj he
  refine ⟨_, hshape, ?_⟩
  have hkeep : (l₁.blocks ns).nodes = (l.blocks ns).nodes := blocks_congr fun n _ => by rw [hsame.frees]; rfl
  have hnew : l₁.heap.frees l.heap.top = 0 := by
    rw [hsame.frees]
    exact hfresh _ (Nat.le_refl _)
  have hnodes : l₁.blocks ((l.heap.top, x) :: ns) = ⟨⟨x, true⟩ :: (l.blocks ns).nodes⟩ := by
    rw [← hkeep]
    simp [blocks, hnew]
  rw [hnodes]
  cases hc : (l.blocks ns).nodes with
  | nil => simpa [DanglingList.push, hc] using hd
  | cons head rest =>
      simp only [DanglingList.push, hc] at hd
      obtain ⟨_, _, hret⟩ := Run.bind_eq_ok.mp hd
      exact Except.ok.inj hret

theorem append_blocks (h : l.Shape ns) (happend : l.append x = .ok l') (hd : (l.blocks ns).append x = .ok d) :
    ∃ ns', l'.Shape ns' ∧ l'.blocks ns' = d := by
  obtain ⟨l₁, hok, hshape, hsame⟩ := append_spec h x
  obtain rfl : l₁ = l' := by
    rw [hok] at happend
    obtain ⟨_, _, he⟩ := Run.bind_eq_ok.mp happend
    exact Except.ok.inj he
  refine ⟨_, hshape, ?_⟩
  have hkeep : (l₁.blocks ns).nodes = (l.blocks ns).nodes := blocks_congr fun n hn => by
    have hne : n.1 ≠ l.heap.top := fun he => h.top_not_mem (he ▸ List.mem_map_of_mem hn)
    rw [hsame.frees, Heap.frees_free, Function.update_of_ne hne, Heap.frees_malloc]
  have hdead : l₁.heap.frees l.heap.top ≠ 0 := by simp [hsame.frees]
  have hnodes : l₁.blocks (ns ++ [(l.heap.top, x)]) = ⟨(l.blocks ns).nodes ++ [⟨x, false⟩]⟩ := by
    rw [← hkeep]
    simp [blocks, hdead]
  rw [hnodes]
  cases hc : (l.blocks ns).nodes.getLast? with
  | none =>
      have hnil := List.getLast?_eq_none_iff.mp hc
      rw [DanglingList.append_nil hnil] at hd
      rw [hnil]
      exact Except.ok.inj hd
  | some tail =>
      simp only [DanglingList.append, hc] at hd
      obtain ⟨_, _, hret⟩ := Run.bind_eq_ok.mp hd
      exact Except.ok.inj hret

end PointerList

end SearchEngine
