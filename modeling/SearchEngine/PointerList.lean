import SearchEngine.LinkedList
import SearchEngine.Library.DoublyLinked

namespace SearchEngine

open DoublyLinked

abbrev LinkedListNode (α : Type) := Cell α

/-- The list record of LinkedList_priv.h, with the heap its nodes are in. -/
structure PointerList (α : Type) where
  heap : Heap (LinkedListNode α)
  numElements : Nat
  head : Option Addr
  tail : Option Addr

namespace PointerList

variable {α : Type}

def allocate : PointerList α := ⟨.empty, 0, none, none⟩

/-- Following a pointer. -/
def deref (h : Heap (LinkedListNode α)) (p : Option Addr) : Run (Addr × LinkedListNode α) :=
  match p with
  | none => .error .badAccess
  | some a =>
      match h.load a with
      | none => .error .badAccess
      | some c => .ok (a, c)

/-- A new node's next and prev are written in both branches. -/
def push (list : PointerList α) (payload : α) : Run (PointerList α) := do
  let ln := list.heap.top
  let heap := list.heap.malloc ⟨payload, none, none⟩
  if list.numElements = 0 then
    verify333 list.head.isNone
    verify333 list.tail.isNone
    return ⟨heap.store ln ⟨payload, none, none⟩, ← intAdd list.numElements 1, some ln, some ln⟩
  else
    let heap := heap.store ln ⟨payload, list.head, none⟩
    let (head, c) ← deref heap list.head
    return ⟨heap.store head ⟨c.payload, c.next, some ln⟩, ← intAdd list.numElements 1, some ln, list.tail⟩

def pop (list : PointerList α) : Run (PointerList α × Option α) :=
  match list.head with
  | none => return (list, none)
  | some head => do
      let (currentNode, c) ← deref list.heap (some head)
      if list.numElements = 1 then
        return (⟨list.heap.free currentNode, list.numElements - 1, none, none⟩, some c.payload)
      else
        let (next, d) ← deref list.heap c.next
        let heap := list.heap.store next ⟨d.payload, d.next, none⟩
        return (⟨heap.free currentNode, list.numElements - 1, c.next, list.tail⟩, some c.payload)

/-- The source ends by freeing the node it has just linked in. -/
def append (list : PointerList α) (payload : α) : Run (PointerList α) := do
  let newNode := list.heap.top
  let heap := list.heap.malloc ⟨payload, none, none⟩
  match list.head with
  | none =>
      let numElements ← intAdd list.numElements 1
      return ⟨heap.free newNode, numElements, some newNode, some newNode⟩
  | some head =>
      let (currentNode, c) ← deref heap list.tail
      let heap := heap.store currentNode ⟨c.payload, some newNode, c.prev⟩
      let heap := heap.store newNode ⟨payload, none, some currentNode⟩
      let numElements ← intAdd list.numElements 1
      return ⟨heap.free newNode, numElements, some head, some newNode⟩

def slice (list : PointerList α) : Run (PointerList α × Option α) :=
  match list.head with
  | none => return (list, none)
  | some head => do
      if some head = list.tail then
        let (node, c) ← deref list.heap (some head)
        return (⟨list.heap.free node, 0, none, none⟩, some c.payload)
      else
        let (currentNode, c) ← deref list.heap list.tail
        let (secondToLast, d) ← deref list.heap c.prev
        let heap := list.heap.store secondToLast ⟨d.payload, none, d.prev⟩
        return (⟨heap.free currentNode, list.numElements - 1, some head, c.prev⟩, some c.payload)

/-- The inner loop of the sort, from curnode to the last node. -/
def sortPass (exchange : α → α → Bool) : Nat → Heap (LinkedListNode α) → Option Addr → Bool →
    Run (Heap (LinkedListNode α) × Bool)
  | 0, _, _, _ => .error .outOfFuel
  | fuel + 1, heap, cur, swapped => do
      let (curnode, c) ← deref heap cur
      match c.next with
      | none => return (heap, swapped)
      | some next =>
          let (next, d) ← deref heap (some next)
          if exchange c.payload d.payload then
            let heap := heap.store curnode ⟨d.payload, c.next, c.prev⟩
            let heap := heap.store next ⟨c.payload, d.next, d.prev⟩
            sortPass exchange fuel heap (some next) true
          else sortPass exchange fuel heap (some next) swapped

def sortLoop (exchange : α → α → Bool) : Nat → PointerList α → Run (PointerList α)
  | 0, _ => .error .outOfFuel
  | passes + 1, list => do
      let (heap, swapped) ← sortPass exchange (list.heap.top + 1) list.heap list.head false
      let list := ⟨heap, list.numElements, list.head, list.tail⟩
      if swapped then sortLoop exchange passes list else return list

/-- The do-while loop need not end for every comparator, so the number of
passes is an argument. -/
def sort (passes : Nat) (list : PointerList α) (ascending : Bool) (comparator : α → α → Int) :
    Run (PointerList α) :=
  if list.numElements < 2 then .ok list
  else sortLoop (LinkedList.exchanges ascending comparator) passes list

/-- The loop of LinkedList_Free, with the payloads it hands to the payload
free function. -/
def freeNodes : Nat → Heap (LinkedListNode α) → Option Addr → Run (Heap (LinkedListNode α) × List α)
  | _, heap, none => return (heap, [])
  | 0, _, some _ => .error .outOfFuel
  | fuel + 1, heap, some cur => do
      let (curnode, c) ← deref heap (some cur)
      let (heap, payloads) ← freeNodes fuel (heap.free curnode) c.next
      return (heap, c.payload :: payloads)

def free (list : PointerList α) : Run (Heap (LinkedListNode α) × List α) :=
  freeNodes list.heap.top list.heap list.head

namespace LLIterator

open SearchEngine (LLIterator)

def allocate (list : PointerList α) : LLIterator := ⟨list.head⟩

def next (list : PointerList α) (iter : LLIterator) : Run (LLIterator × Bool) := do
  verify333 iter.node.isSome
  let (_, c) ← deref list.heap iter.node
  return (⟨c.next⟩, c.next.isSome)

def get (list : PointerList α) (iter : LLIterator) : Run α := do
  verify333 iter.node.isSome
  let (_, c) ← deref list.heap iter.node
  return c.payload

/-- The second component of the result is the payload handed to the payload
free function. -/
def remove (list : PointerList α) (iter : LLIterator) : Run (PointerList α × α × LLIterator × Bool) := do
  verify333 iter.node.isSome
  if list.numElements = 1 then
    let (node, c) ← deref list.heap iter.node
    return (⟨list.heap.free node, 0, none, none⟩, c.payload, ⟨none⟩, false)
  else if iter.node = list.head then
    match ← pop list with
    | (_, none) => .error .badAccess
    | (list, some temp) => return (list, temp, ⟨list.head⟩, true)
  else if iter.node = list.tail then
    match ← slice list with
    | (_, none) => .error .badAccess
    | (list, some temp) => return (list, temp, ⟨list.tail⟩, true)
  else
    let (curr, c) ← deref list.heap iter.node
    let (prev, d) ← deref list.heap c.prev
    let heap := list.heap.store prev ⟨d.payload, c.next, d.prev⟩
    let (next, e) ← deref heap c.next
    let heap := heap.store next ⟨e.payload, e.next, c.prev⟩
    return (⟨heap.free curr, list.numElements - 1, list.head, list.tail⟩, c.payload, ⟨c.next⟩, true)

def rewind (list : PointerList α) : LLIterator := ⟨list.head⟩

end LLIterator

/-- The nodes of a list in order, and the record that goes with them. -/
structure Shape (list : PointerList α) (ns : List (Addr × α)) : Prop where
  linked : Linked list.heap none ns none
  distinct : (addrs ns).Nodup
  head : list.head = first ns none
  tail : list.tail = last none ns
  count : list.numElements = ns.length

theorem deref_eq {h : Heap (LinkedListNode α)} {a : Addr} {c : LinkedListNode α} (hload : h.load a = some c) :
    deref h (some a) = .ok (a, c) := by
  simp [deref, hload]

theorem allocate_shape : Shape (allocate : PointerList α) [] :=
  ⟨trivial, List.nodup_nil, rfl, rfl, rfl⟩

section

variable {l : PointerList α} {ns pre post : List (Addr × α)} {n : Addr × α}

theorem Shape.top_not_mem (h : Shape l ns) : l.heap.top ∉ addrs ns := by
  intro hm
  exact Nat.lt_irrefl _ (h.linked.lt_top _ hm)

theorem Shape.length_le_top (h : Shape l ns) : ns.length ≤ l.heap.top := by
  have hsub : addrs ns ⊆ List.range l.heap.top := fun a ha => List.mem_range.mpr (h.linked.lt_top a ha)
  simpa using (List.subperm_of_subset h.distinct hsub).length_le

theorem Shape.head_before {m : Addr × α} (h : Shape l ((pre ++ [m]) ++ n :: post)) :
    ∃ a, l.head = some a ∧ a ≠ n.1 := by
  obtain ⟨a, ha, hfirst⟩ := first_concat pre m (first (n :: post) none)
  have hd := h.distinct
  rw [addrs, List.map_append, List.nodup_append] at hd
  exact ⟨a, by rw [h.head, first_append, hfirst], hd.2.2 a ha n.1 (by simp)⟩

/-- The only way a push can go wrong is the element count leaving int. -/
theorem push_spec (h : Shape l ns) (x : α) :
    ∃ l', push l x = (intAdd ns.length 1 >>= fun _ => .ok l') ∧ Shape l' ((l.heap.top, x) :: ns) ∧
      Heap.SameAccount (l.heap.malloc ⟨x, none, none⟩) l'.heap := by
  have hnew : l.heap.top < (l.heap.malloc ⟨x, none, none⟩).top := by simp
  cases ns with
  | nil =>
      refine ⟨⟨(l.heap.malloc ⟨x, none, none⟩).store l.heap.top ⟨x, none, none⟩, 1, some l.heap.top, some l.heap.top⟩,
        ?_, ⟨⟨?_, trivial⟩, by simp, rfl, rfl, rfl⟩, Heap.sameAccount_store _ _ _⟩
      · have hone : intAdd 0 1 = .ok 1 := rfl
        simp [push, h.count, h.head, h.tail, first, last, hone]
      · exact Heap.load_store_self _ _ hnew
  | cons n ns =>
      have hne : l.heap.top ≠ n.1 := fun he => h.top_not_mem (he ▸ by simp)
      have hns : n.1 ∉ addrs ns := (List.nodup_cons.mp h.distinct).1
      have hl₁ : Linked ((l.heap.malloc ⟨x, none, none⟩).store l.heap.top ⟨x, some n.1, none⟩) none (n :: ns) none :=
        (h.linked.malloc _).store h.top_not_mem _
      have hl₂ := hl₁.setPrev hns (some l.heap.top)
      refine ⟨⟨((l.heap.malloc ⟨x, none, none⟩).store l.heap.top ⟨x, some n.1, none⟩).store n.1
          ⟨n.2, first ns none, some l.heap.top⟩, ns.length + 1 + 1, some l.heap.top, l.tail⟩,
        ?_, ⟨⟨?_, hl₂⟩, ?_, rfl, ?_, rfl⟩, ?_⟩
      · have hcount : l.numElements = ns.length + 1 := h.count
        have hpos : ¬ns.length + 1 = 0 := by omega
        simp only [push, hcount, hpos, if_false, h.head, first, deref_eq hl₁.1, Run.ok_bind, Run.pure_eq_ok]
        exact intAdd_bind _ _ _
      · rw [Heap.load_store_of_ne _ _ hne.symm, Heap.load_store_self _ _ hnew]
        rfl
      · exact List.nodup_cons.mpr ⟨h.top_not_mem, h.distinct⟩
      · exact h.tail
      · exact (Heap.sameAccount_store _ _ _).trans (Heap.sameAccount_store _ _ _)

theorem pop_nil (h : Shape l []) : pop l = .ok (l, none) := by
  simp [pop, h.head, first]

theorem pop_spec (h : Shape l (n :: ns)) :
    ∃ l', pop l = .ok (l', some n.2) ∧ Shape l' ns ∧ Heap.SameAccount (l.heap.free n.1) l'.heap := by
  have hns : n.1 ∉ addrs ns := (List.nodup_cons.mp h.distinct).1
  have hdistinct := (List.nodup_cons.mp h.distinct).2
  cases ns with
  | nil =>
      refine ⟨⟨l.heap.free n.1, 0, none, none⟩, ?_, ⟨trivial, hdistinct, rfl, rfl, rfl⟩, .refl _⟩
      simp [pop, h.head, first, deref_eq h.linked.1, h.count]
  | cons m ns =>
      have hl := h.linked.2.setPrev (List.nodup_cons.mp hdistinct).1 none
      refine ⟨⟨(l.heap.store m.1 ⟨m.2, first ns none, none⟩).free n.1, ns.length + 1, some m.1, l.tail⟩,
        ?_, ⟨hl.free n.1, hdistinct, rfl, h.tail, rfl⟩, ?_⟩
      · simp [pop, h.head, first, deref_eq h.linked.1, deref_eq h.linked.2.1, h.count]
      · exact ⟨Heap.top_store _ _ _, rfl⟩

theorem slice_nil (h : Shape l []) : slice l = .ok (l, none) := by
  simp [slice, h.head, first]

theorem slice_spec (h : Shape l (ns ++ [n])) :
    ∃ l', slice l = .ok (l', some n.2) ∧ Shape l' ns ∧ Heap.SameAccount (l.heap.free n.1) l'.heap := by
  have htail : l.tail = some n.1 := by rw [h.tail, last_append]; rfl
  obtain ⟨hl, hn⟩ := linked_append.mp h.linked
  have hnodup := h.distinct
  rw [addrs, List.map_append, List.nodup_append] at hnodup
  rcases List.eq_nil_or_concat ns with rfl | ⟨ms, m, rfl⟩
  · refine ⟨⟨l.heap.free n.1, 0, none, none⟩, ?_, ⟨trivial, List.nodup_nil, rfl, rfl, rfl⟩, .refl _⟩
    have hhead : l.head = some n.1 := h.head
    simp [slice, hhead, htail, deref_eq hn.1]
  · rw [List.concat_eq_append] at *
    have hm : m.1 ∉ addrs ms := by
      have hd := hnodup.1
      rw [List.map_append, List.nodup_append] at hd
      intro hmem
      exact hd.2.2 m.1 hmem m.1 (by simp) rfl
    have hl' := hl.setNext hm none
    have hlast := (linked_append.mp hl).2.1
    obtain ⟨a, hhead, ha⟩ := h.head_before
    refine ⟨⟨(l.heap.store m.1 ⟨m.2, none, last none ms⟩).free n.1, ms.length + 1, l.head, some m.1⟩, ?_,
      ⟨hl'.free n.1, hnodup.1, ?_, ?_, ?_⟩, ?_⟩
    · have hne : ¬some a = some n.1 := by simpa using ha
      simp only [slice, hhead, htail, hne, if_false, deref_eq hn.1, last_append, last, Run.ok_bind,
        deref_eq hlast, Run.pure_eq_ok, h.count, List.length_append, List.length_cons, List.length_nil]
      rfl
    · rw [h.head, first_append, first_append]
      cases ms <;> rfl
    · rw [last_append]
      rfl
    · simp
    · exact ⟨Heap.top_store _ _ _, rfl⟩

theorem append_spec (h : Shape l ns) (x : α) :
    ∃ l', append l x = (intAdd ns.length 1 >>= fun _ => .ok l') ∧ Shape l' (ns ++ [(l.heap.top, x)]) ∧
      Heap.SameAccount ((l.heap.malloc ⟨x, none, none⟩).free l.heap.top) l'.heap := by
  have htop := h.top_not_mem
  have hdistinct : (addrs (ns ++ [(l.heap.top, x)])).Nodup := by
    rw [addrs, List.map_append, List.nodup_append]
    refine ⟨h.distinct, by simp, ?_⟩
    intro a ha b hb
    obtain rfl : b = l.heap.top := by simpa using hb
    exact fun he => htop (he ▸ ha)
  rcases List.eq_nil_or_concat ns with rfl | ⟨ms, m, rfl⟩
  · refine ⟨⟨(l.heap.malloc ⟨x, none, none⟩).free l.heap.top, 1, some l.heap.top, some l.heap.top⟩,
      ?_, ⟨⟨?_, trivial⟩, hdistinct, rfl, rfl, rfl⟩, .refl _⟩
    · simp only [append, h.head, first, h.count]
      rfl
    · exact l.heap.load_malloc_top _
  · rw [List.concat_eq_append] at *
    have htail : l.tail = some m.1 := by rw [h.tail, last_append]; rfl
    obtain ⟨a, _, hfirst⟩ := first_concat ms m none
    have hhead : l.head = some a := by rw [h.head, hfirst]
    have hm : m.1 ∉ addrs ms := by
      have hd := h.distinct
      rw [addrs, List.map_append, List.nodup_append] at hd
      intro hmem
      exact hd.2.2 m.1 hmem m.1 (by simp) rfl
    have hl₁ := h.linked.malloc (⟨x, none, none⟩ : LinkedListNode α)
    have hl₂ := (hl₁.setNext hm (some l.heap.top)).store htop ⟨x, none, some m.1⟩
    refine ⟨⟨(((l.heap.malloc ⟨x, none, none⟩).store m.1 ⟨m.2, some l.heap.top, last none ms⟩).store l.heap.top
        ⟨x, none, some m.1⟩).free l.heap.top, ms.length + 1 + 1, l.head, some l.heap.top⟩,
      ?_, ⟨?_, hdistinct, ?_, ?_, ?_⟩, ?_⟩
    · have hcount : l.numElements = (ms ++ [m]).length := h.count
      simp only [append, hhead, htail, deref_eq (linked_append.mp hl₁).2.1, hcount, Run.ok_bind, Run.pure_eq_ok]
      rw [intAdd_bind, List.length_append]
      rfl
    · refine linked_append.mpr ⟨hl₂.free _, ?_, trivial⟩
      rw [Heap.load_free, Heap.load_store_self _ _ (by simp), last_append]
      rfl
    · rw [h.head, first_append, first_append, first_append]
      cases ms <;> rfl
    · rw [last_append]
      rfl
    · simp
    · refine ⟨by simp, ?_⟩
      simp

theorem next_spec (h : Shape l (pre ++ n :: post)) :
    LLIterator.next l ⟨some n.1⟩ = .ok (⟨first post none⟩, (first post none).isSome) := by
  simp [LLIterator.next, deref_eq (linked_append.mp h.linked).2.1]

theorem get_spec (h : Shape l (pre ++ n :: post)) : LLIterator.get l ⟨some n.1⟩ = .ok n.2 := by
  simp [LLIterator.get, deref_eq (linked_append.mp h.linked).2.1]

/-- Splicing a node out between two neighbours. -/
theorem splice_spec {m k : Addr × α} (h : Shape l ((pre ++ [m]) ++ n :: k :: post)) :
    ∃ l', LLIterator.remove l ⟨some n.1⟩ = .ok (l', n.2, ⟨some k.1⟩, true) ∧ Shape l' ((pre ++ [m]) ++ k :: post) ∧
      Heap.SameAccount (l.heap.free n.1) l'.heap := by
  have hd := h.distinct
  simp only [addrs, List.map_append, List.map_cons, List.nodup_append, List.nodup_cons] at hd
  obtain ⟨hd₁, hd₂, hd₃⟩ := hd
  have hm : m.1 ∉ addrs pre := fun hmem => hd₁.2.2 m.1 hmem m.1 (by simp) rfl
  have hm' : m.1 ∉ addrs (n :: k :: post) := fun hmem => hd₃ m.1 (by simp) m.1 hmem rfl
  have hk : k.1 ∉ addrs (pre ++ [m]) := fun hmem => hd₃ k.1 (by simpa using hmem) k.1 (by simp) rfl
  obtain ⟨hl, hn⟩ := linked_append.mp h.linked
  have hl₁ := hl.setNext hm (some k.1)
  have hk₁ := (hn.store hm' ⟨m.2, some k.1, last none pre⟩).2
  have hk₂ := hk₁.setPrev hd₂.2.1 (some m.1)
  refine ⟨⟨((l.heap.store m.1 ⟨m.2, some k.1, last none pre⟩).store k.1 ⟨k.2, first post none, some m.1⟩).free n.1,
      l.numElements - 1, l.head, l.tail⟩,
    ?_, ⟨?_, ?_, ?_, ?_, ?_⟩, ⟨by simp, rfl⟩⟩
  · have hmany : l.numElements ≠ 1 := by
      simp only [h.count, List.length_append, List.length_cons]
      omega
    obtain ⟨a, hhead, ha⟩ := h.head_before
    have hne : ¬some n.1 = some a := by simpa using Ne.symm ha
    have htail : ¬some n.1 = l.tail := by
      rw [h.tail, last_append]
      intro he
      exact hd₂.1 (List.mem_cons.mpr (last_mem he.symm))
    simp only [LLIterator.remove, Option.isSome_some, verify333_true, Run.ok_bind, hmany, if_false,
      hhead, hne, htail, deref_eq hn.1, last_append, last, first, deref_eq (linked_append.mp hl).2.1,
      deref_eq hk₁.1, Run.pure_eq_ok]
  · exact linked_append.mpr ⟨(hl₁.store hk _).free _, by rw [last_append]; exact hk₂.free _⟩
  · simp only [addrs, List.map_append, List.map_cons, List.nodup_append, List.nodup_cons]
    exact ⟨hd₁, hd₂.2, fun a ha b hb => hd₃ a ha b (List.mem_cons_of_mem _ hb)⟩
  · rw [h.head, first_append, first_append]
    cases pre <;> rfl
  · simp only [h.tail, last_append, last]
  · rw [h.count]
    simp

/-- Where LLIterator_Remove leaves the iterator, in each of its four cases. -/
theorem remove_spec (h : Shape l (pre ++ n :: post)) :
    ∃ l', LLIterator.remove l ⟨some n.1⟩ =
        .ok (l', n.2, ⟨first post (last none pre)⟩, !(pre ++ post).isEmpty) ∧
      Shape l' (pre ++ post) ∧ Heap.SameAccount (l.heap.free n.1) l'.heap := by
  rcases List.eq_nil_or_concat pre with rfl | ⟨pre, m, rfl⟩
  · cases post with
    | nil =>
        refine ⟨⟨l.heap.free n.1, 0, none, none⟩, ?_, ⟨trivial, List.nodup_nil, rfl, rfl, rfl⟩, .refl _⟩
        simp [LLIterator.remove, h.count, deref_eq h.linked.1, first, last]
    | cons k post =>
        obtain ⟨l', hpop, hl', hsame⟩ := pop_spec h
        refine ⟨l', ?_, hl', hsame⟩
        simp [LLIterator.remove, h.count, h.head, first, hpop, hl'.head]
  · rw [List.concat_eq_append] at *
    cases post with
    | nil =>
        obtain ⟨l', hslice, hl', hsame⟩ := slice_spec h
        refine ⟨l', ?_, by simpa using hl', hsame⟩
        have htail : l.tail = some n.1 := by rw [h.tail, last_append]; rfl
        obtain ⟨a, hhead, ha⟩ := h.head_before
        simp [LLIterator.remove, h.count, hhead, Ne.symm ha, htail, hslice, hl'.tail, first, last]
    | cons k post =>
        obtain ⟨l', hrem, hl', hsame⟩ := splice_spec h
        exact ⟨l', by rw [hrem]; simp [first], hl', hsame⟩

/-- A pass exchanges payloads only: the nodes stay where they are. -/
theorem sortPass_spec (exchange : α → α → Bool) (fuel : Nat) {heap : Heap (LinkedListNode α)} {p : Option Addr}
    (hl : Linked heap p (n :: ns) none) (hd : (addrs (n :: ns)).Nodup) (hfuel : ns.length < fuel) (swapped : Bool) :
    ∃ heap' ns', sortPass exchange fuel heap (some n.1) swapped =
        .ok (heap', swapped || (BubbleSort.pass exchange n.2 (ns.map Prod.snd)).2) ∧
      Linked heap' p ns' none ∧ addrs ns' = addrs (n :: ns) ∧
      ns'.map Prod.snd = (BubbleSort.pass exchange n.2 (ns.map Prod.snd)).1 ∧
      (∀ a ∉ addrs (n :: ns), heap'.load a = heap.load a) ∧ Heap.SameAccount heap heap' := by
  induction ns generalizing fuel heap p n swapped with
  | nil =>
      obtain ⟨fuel, rfl⟩ := Nat.exists_eq_succ_of_ne_zero (Nat.ne_of_gt hfuel)
      refine ⟨heap, [n], ?_, hl, rfl, rfl, fun _ _ => rfl, .refl _⟩
      simp [sortPass, deref_eq hl.1, first, BubbleSort.pass]
  | cons m ns ih =>
      obtain ⟨fuel, rfl⟩ := Nat.exists_eq_succ_of_ne_zero (Nat.ne_of_gt (Nat.zero_lt_of_lt hfuel))
      obtain ⟨hn, hd'⟩ := List.nodup_cons.mp hd
      have hlen : ns.length < fuel := by simpa using hfuel
      have hne : n.1 ≠ m.1 := fun he => hn (he ▸ by simp)
      by_cases hx : exchange n.2 m.2 = true
      · -- the two payloads change places and the walk goes on with the larger one in hand
        have hm : m.1 ∉ addrs ns := (List.nodup_cons.mp hd').1
        have hl₁ : Linked ((heap.store n.1 ⟨m.2, some m.1, p⟩).store m.1 ⟨n.2, first ns none, some n.1⟩) (some n.1)
            ((m.1, n.2) :: ns) none := by
          refine ⟨Heap.load_store_self _ _ ?_, (hl.2.2.store ?_ _).store hm _⟩
          · rw [Heap.top_store]
            exact Heap.lt_top hl.2.1
          · exact fun hmem => hn (List.mem_cons_of_mem _ hmem)
        obtain ⟨heap', ns', hpass, hl', haddrs, hpayloads, hframe, hsame⟩ :=
          ih (n := (m.1, n.2)) fuel hl₁ hd' hlen true
        refine ⟨heap', (n.1, m.2) :: ns', ?_, ⟨?_, hl'⟩, ?_, ?_, ?_, ?_⟩
        · simp only [sortPass, deref_eq hl.1, deref_eq hl.2.1, first_cons, Run.ok_bind, hx, if_true, hpass,
            List.map_cons, BubbleSort.pass, Bool.true_or, Bool.or_true]
        · rw [hframe n.1 hn, Heap.load_store_of_ne _ _ hne.symm, Heap.load_store_self _ _ (Heap.lt_top hl.1)]
          cases ns' with
          | nil => simp at haddrs
          | cons k ns' =>
              obtain ⟨hk, _⟩ := List.cons_eq_cons.mp haddrs
              simp only [first, hk]
        · exact congrArg (n.1 :: ·) haddrs
        · simp only [List.map_cons, hpayloads, BubbleSort.pass, hx, if_true]
        · intro a ha
          simp only [addrs, List.map_cons, List.mem_cons, not_or] at ha
          rw [hframe a (by simpa using ha.2), Heap.load_store_of_ne _ _ (Ne.symm ha.2.1),
            Heap.load_store_of_ne _ _ (Ne.symm ha.1)]
        · exact ((Heap.sameAccount_store _ _ _).trans (Heap.sameAccount_store _ _ _)).trans hsame
      · obtain ⟨heap', ns', hpass, hl', haddrs, hpayloads, hframe, hsame⟩ := ih fuel hl.2 hd' hlen swapped
        refine ⟨heap', n :: ns', ?_, ⟨?_, hl'⟩, ?_, ?_, ?_, hsame⟩
        · simp only [sortPass, deref_eq hl.1, deref_eq hl.2.1, first_cons, Run.ok_bind, hx, if_false, hpass,
            List.map_cons, BubbleSort.pass, Bool.false_eq_true]
        · rw [hframe n.1 hn, hl.1]
          cases ns' with
          | nil => simp at haddrs
          | cons k ns' =>
              obtain ⟨hk, _⟩ := List.cons_eq_cons.mp haddrs
              simp only [first, hk]
        · exact congrArg (n.1 :: ·) haddrs
        · simp only [List.map_cons, hpayloads, BubbleSort.pass, hx, if_false, Bool.false_eq_true]
        · intro a ha
          exact hframe a fun hmem => ha (List.mem_cons_of_mem _ hmem)

theorem first_of_addrs {ms : List (Addr × α)} (h : addrs ms = addrs ns) : first ms none = first ns none := by
  cases ms with
  | nil =>
      cases ns with
      | nil => rfl
      | cons n ns => simp at h
  | cons m ms =>
      cases ns with
      | nil => simp at h
      | cons n ns =>
          obtain ⟨hm, _⟩ := List.cons_eq_cons.mp h
          simp only [first, hm]

theorem Shape.withPayloads {ms : List (Addr × α)} {heap : Heap (LinkedListNode α)} (h : Shape l ns)
    (hl : Linked heap none ms none) (haddrs : addrs ms = addrs ns) :
    Shape ⟨heap, l.numElements, l.head, l.tail⟩ ms where
  linked := hl
  distinct := haddrs ▸ h.distinct
  head := by rw [h.head, first_of_addrs haddrs]
  tail := by rw [h.tail, last_eq_getLast?, last_eq_getLast?, haddrs]
  count := by
    have hlen := congrArg List.length haddrs
    simp only [addrs, List.length_map] at hlen
    rw [h.count, hlen]

theorem sortLoop_spec (exchange : α → α → Bool) (passes : Nat) (h : Shape l ns) (hpos : ns ≠ []) :
    match BubbleSort.sort exchange passes (ns.map Prod.snd) with
    | none => sortLoop exchange passes l = .error .outOfFuel
    | some ps => ∃ l' ns', sortLoop exchange passes l = .ok l' ∧ Shape l' ns' ∧ addrs ns' = addrs ns ∧
        ns'.map Prod.snd = ps ∧ Heap.SameAccount l.heap l'.heap := by
  induction passes generalizing l ns with
  | zero => rfl
  | succ passes ih =>
      cases ns with
      | nil => exact absurd rfl hpos
      | cons n ns =>
          have hfuel : ns.length < l.heap.top + 1 := by
            have hlen := h.length_le_top
            rw [List.length_cons] at hlen
            omega
          obtain ⟨heap', ns', hpass, hl', haddrs, hpayloads, _, hsame⟩ :=
            sortPass_spec exchange (l.heap.top + 1) h.linked h.distinct hfuel false
          have hshape := h.withPayloads hl' haddrs
          have hhead : l.head = some n.1 := h.head
          have hloop : sortLoop exchange (passes + 1) l =
              if (BubbleSort.pass exchange n.2 (ns.map Prod.snd)).2 then
                sortLoop exchange passes ⟨heap', l.numElements, l.head, l.tail⟩
              else .ok ⟨heap', l.numElements, l.head, l.tail⟩ := by
            rw [sortLoop, hhead, hpass]
            simp
          rw [List.map_cons, BubbleSort.sort, hloop]
          cases hswap : (BubbleSort.pass exchange n.2 (ns.map Prod.snd)).2 with
          | true =>
              have hne : ns' ≠ [] := by
                rintro rfl
                simp at haddrs
              have hrest := ih hshape hne
              rw [hpayloads] at hrest
              simp only [if_true]
              split at hrest
              · exact hrest
              · obtain ⟨l'', ns'', hl'', hshape'', haddrs'', hps, hsame''⟩ := hrest
                exact ⟨l'', ns'', hl'', hshape'', haddrs''.trans haddrs, hps, hsame.trans hsame''⟩
          | false =>
              refine ⟨⟨heap', l.numElements, l.head, l.tail⟩, ns', rfl, hshape, haddrs, ?_, hsame⟩
              rw [hpayloads]
              exact BubbleSort.pass_same hswap

theorem freeNodes_spec (fuel : Nat) {heap : Heap (LinkedListNode α)} {p : Option Addr} (hl : Linked heap p ns none)
    (hfuel : ns.length ≤ fuel) :
    freeNodes fuel heap (first ns none) =
      .ok ((addrs ns).foldl Heap.free heap, ns.map Prod.snd) := by
  induction ns generalizing fuel heap p with
  | nil => simp [freeNodes, first]
  | cons n ns ih =>
      cases fuel with
      | zero => simp at hfuel
      | succ fuel =>
          have hrest := ih fuel (hl.2.free n.1) (by simpa using hfuel)
          simp [freeNodes, deref_eq hl.1, hrest]

theorem free_spec (h : Shape l ns) :
    free l = .ok ((addrs ns).foldl Heap.free l.heap, ns.map Prod.snd) := by
  rw [free, h.head]
  exact freeNodes_spec l.heap.top h.linked h.length_le_top

end

end PointerList

end SearchEngine
