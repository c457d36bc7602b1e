import SearchEngine.Run
import SearchEngine.Library.BubbleSort
import Mathlib.Data.List.Nodup

namespace SearchEngine

abbrev Addr := Nat

structure LLNode (α : Type) where
  addr : Addr
  payload : α
  deriving DecidableEq

/-- A list at the level of LinkedList.h: its nodes in order, each at an
address of its own. Iterators hold such an address. -/
structure LinkedList (α : Type) where
  nodes : List (LLNode α)
  distinct : (nodes.map LLNode.addr).Nodup
  deriving DecidableEq

namespace LinkedList

variable {α : Type}

def payloads (l : LinkedList α) : List α := l.nodes.map LLNode.payload

def allocate : LinkedList α := ⟨[], List.nodup_nil⟩

def numElements (l : LinkedList α) : Nat := l.nodes.length

/-- The address malloc returns for a new node: no live node has it. -/
def freshAddr (l : LinkedList α) : Addr := (l.nodes.map LLNode.addr).foldr max 0 + 1

theorem le_foldr_max {a : Nat} {as : List Nat} (h : a ∈ as) : a ≤ as.foldr max 0 := by
  induction as with
  | nil => simp at h
  | cons b bs ih =>
      rcases List.mem_cons.mp h with rfl | h
      · exact Nat.le_max_left _ _
      · exact Nat.le_trans (ih h) (Nat.le_max_right _ _)

theorem freshAddr_not_mem (l : LinkedList α) : l.freshAddr ∉ l.nodes.map LLNode.addr := by
  intro h
  have hle := le_foldr_max h
  unfold freshAddr at hle
  omega

/-- What LinkedList.h says of LinkedList_Append: the new node stays allocated.
The free of the node that ends it in the source is left out here; it is in
PointerList.append and DanglingList.append. -/
def append (l : LinkedList α) (payload : α) : LinkedList α where
  nodes := l.nodes ++ [⟨l.freshAddr, payload⟩]
  distinct := by
    rw [List.map_append, List.nodup_append]
    refine ⟨l.distinct, by simp, ?_⟩
    intro a ha b hb
    have hb : b = l.freshAddr := by simpa using hb
    rintro rfl
    exact l.freshAddr_not_mem (hb ▸ ha)

def pop (l : LinkedList α) : Option (α × LinkedList α) :=
  match l with
  | ⟨[], _⟩ => none
  | ⟨n :: ns, h⟩ => some (n.payload, ⟨ns, (List.nodup_cons.mp h).2⟩)

def dropTail (l : LinkedList α) : LinkedList α :=
  ⟨l.nodes.dropLast, l.distinct.sublist ((List.dropLast_sublist _).map _)⟩

def slice (l : LinkedList α) : Option (α × LinkedList α) :=
  l.nodes.getLast?.map fun n => (n.payload, l.dropTail)

def unlink (l : LinkedList α) (a : Addr) : LinkedList α :=
  ⟨l.nodes.eraseP (fun n => n.addr = a), l.distinct.sublist (List.eraseP_sublist.map _)⟩

def modify (l : LinkedList α) (a : Option Addr) (f : α → α) : LinkedList α where
  nodes := l.nodes.map fun n => if some n.addr = a then ⟨n.addr, f n.payload⟩ else n
  distinct := by
    rw [List.map_map, List.map_congr_left (g := LLNode.addr)]
    · exact l.distinct
    · intro n _
      simp only [Function.comp_apply]
      split <;> rfl

def withPayloads (l : LinkedList α) (ps : List α) : LinkedList α where
  nodes := List.zipWith (fun n p => ⟨n.addr, p⟩) l.nodes ps
  distinct := by
    have h : (List.zipWith (fun (n : LLNode α) p => (⟨n.addr, p⟩ : LLNode α)) l.nodes ps).map
        LLNode.addr = (l.nodes.map LLNode.addr).take ps.length := by
      generalize l.nodes = ns
      induction ns generalizing ps with
      | nil => simp
      | cons n ns ih => cases ps <;> simp [ih]
    exact h ▸ l.distinct.sublist (List.take_sublist _ _)

/-- Two neighbours are exchanged when the comparison, inverted for an
ascending order, is negative. -/
def exchanges (ascending : Bool) (comparator : α → α → Int) (cur next : α) : Bool :=
  let compareResult := comparator cur next
  (if ascending then compareResult * -1 else compareResult) < 0

/-- The bound on the passes is never reached. -/
def sort (l : LinkedList α) (ascending : Bool) (comparator : α → α → Int) : Run (LinkedList α) :=
  if l.numElements < 2 then .ok l
  else
    match BubbleSort.sort (exchanges ascending comparator) (l.numElements * l.numElements + 1) l.payloads with
    | none => .error .outOfFuel
    | some ps => .ok (l.withPayloads ps)

@[simp]
theorem payloads_allocate : (allocate : LinkedList α).payloads = [] := rfl

@[simp]
theorem payloads_append (l : LinkedList α) (p : α) : (l.append p).payloads = l.payloads ++ [p] := by
  simp [payloads, append]

@[simp]
theorem length_payloads (l : LinkedList α) : l.payloads.length = l.numElements := by
  simp [payloads, numElements]

@[simp]
theorem payloads_withPayloads (l : LinkedList α) (ps : List α) (h : ps.length = l.numElements) :
    (l.withPayloads ps).payloads = ps := by
  simp only [payloads, withPayloads, numElements] at h ⊢
  generalize l.nodes = ns at h ⊢
  induction ns generalizing ps with
  | nil => simpa using h
  | cons n ns ih =>
      cases ps with
      | nil => simp at h
      | cons p ps => simpa using ih ps (by simpa using h)

theorem numElements_append (l : LinkedList α) (p : α) : (l.append p).numElements = l.numElements + 1 := by
  simp [numElements, append]

theorem numElements_modify (l : LinkedList α) (a : Option Addr) (f : α → α) :
    (l.modify a f).numElements = l.numElements := by
  simp [numElements, modify]

theorem map_payloads_modify {β : Type} (l : LinkedList α) (a : Option Addr) (f : α → α) (g : α → β)
    (hg : ∀ p, g (f p) = g p) : (l.modify a f).payloads.map g = l.payloads.map g := by
  simp only [payloads, modify, List.map_map]
  refine List.map_congr_left fun n _ => ?_
  simp only [Function.comp_apply]
  split <;> simp [hg]

theorem sort_spec (l : LinkedList α) (ascending : Bool) (comparator : α → α → Int)
    (hasymm : ∀ x y, exchanges ascending comparator x y = true → exchanges ascending comparator y x = false) :
    ∃ l', l.sort ascending comparator = .ok l' ∧ l'.payloads.Perm l.payloads ∧
      l'.payloads.IsChain fun x y => exchanges ascending comparator x y = false := by
  unfold sort
  split
  · next hn =>
    refine ⟨l, rfl, .rfl, ?_⟩
    rw [← length_payloads] at hn
    match hp : l.payloads with
    | [] => exact .nil
    | [p] => exact .singleton p
    | p :: q :: ps =>
        simp only [hp, List.length_cons] at hn
        omega
  · obtain ⟨ps, hsort, hperm, hchain⟩ := BubbleSort.sort_spec hasymm (l.numElements * l.numElements + 1)
      l.payloads (by
        have hle : BubbleSort.inversions (exchanges ascending comparator) l.payloads ≤ _ :=
          BubbleSort.inversions_le l.payloads
        rw [length_payloads] at hle
        omega)
    have hps : (l.withPayloads ps).payloads = ps :=
      payloads_withPayloads l ps (by rw [hperm.length_eq, length_payloads])
    exact ⟨l.withPayloads ps, by rw [hsort], by rwa [hps], by rwa [hps]⟩

end LinkedList

/-- The node an iterator points at, or none once it is past the end. -/
structure LLIterator where
  node : Option Addr
  deriving DecidableEq

namespace LLIterator

variable {α : Type}

def allocate (l : LinkedList α) : LLIterator := ⟨l.nodes.head?.map LLNode.addr⟩

def isValid (it : LLIterator) : Bool := it.node.isSome

/-- The node of a valid iterator and the nodes after it. Following a pointer
to a node that was removed is a bad access. -/
def deref (l : LinkedList α) (it : LLIterator) : Run (LLNode α × List (LLNode α)) :=
  match it.node with
  | none => .error .verify333
  | some a =>
      match l.nodes.dropWhile (fun n => n.addr ≠ a) with
      | [] => .error .badAccess
      | n :: rest => .ok (n, rest)

def get (l : LinkedList α) (it : LLIterator) : Run α := do
  let (n, _) ← deref l it
  return n.payload

def next (l : LinkedList α) (it : LLIterator) : Run (LLIterator × Bool) := do
  let (_, rest) ← deref l it
  return (⟨rest.head?.map LLNode.addr⟩, rest.head?.isSome)

/-- The four cases of the source: the only element, the head, the tail, and
the splice in the middle. The result is false when the list became empty. -/
def remove (l : LinkedList α) (it : LLIterator) : Run (LinkedList α × LLIterator × Bool) := do
  let (n, rest) ← deref l it
  if l.numElements = 1 then
    return (LinkedList.allocate, ⟨none⟩, false)
  else if l.nodes.head?.map LLNode.addr = some n.addr then
    match l.pop with
    | none => .error .badAccess
    | some (_, l') => return (l', ⟨l'.nodes.head?.map LLNode.addr⟩, true)
  else if l.nodes.getLast?.map LLNode.addr = some n.addr then
    match l.slice with
    | none => .error .badAccess
    | some (_, l') => return (l', ⟨l'.nodes.getLast?.map LLNode.addr⟩, true)
  else
    return (l.unlink n.addr, ⟨rest.head?.map LLNode.addr⟩, true)

variable {l : LinkedList α} {pre post : List (LLNode α)} {n : LLNode α}

theorem addr_ne_before (h : l.nodes = pre ++ n :: post) : ∀ m ∈ pre, m.addr ≠ n.addr := by
  have hd := l.distinct
  rw [h, List.map_append, List.map_cons, List.nodup_append] at hd
  intro m hm
  exact hd.2.2 m.addr (List.mem_map_of_mem hm) n.addr (by simp)

theorem addr_ne_after (h : l.nodes = pre ++ n :: post) : ∀ m ∈ post, m.addr ≠ n.addr := by
  have hd := l.distinct
  rw [h, List.map_append, List.map_cons, List.nodup_append, List.nodup_cons] at hd
  intro m hm he
  exact hd.2.1.1 (he ▸ List.mem_map_of_mem hm)

theorem deref_eq (h : l.nodes = pre ++ n :: post) : deref l ⟨some n.addr⟩ = .ok (n, post) := by
  have hpre : ∀ m ∈ pre, decide (m.addr ≠ n.addr) = true := fun m hm => by
    simpa using addr_ne_before h m hm
  simp only [deref, h, List.dropWhile_append_of_pos hpre]
  simp

theorem deref_ok {it : LLIterator} (h : deref l it = .ok (n, post)) :
    it = ⟨some n.addr⟩ ∧ ∃ pre, l.nodes = pre ++ n :: post := by
  obtain ⟨node⟩ := it
  cases node with
  | none => simp [deref] at h
  | some a =>
      simp only [deref] at h
      split at h
      · simp at h
      · rename_i m rest hdrop
        obtain ⟨rfl, rfl⟩ : m = n ∧ rest = post := by simpa using h
        have ha := List.head?_dropWhile_not (fun n : LLNode α => decide (n.addr ≠ a)) l.nodes
        simp only [hdrop, List.head?_cons, decide_eq_false_iff_not, not_not] at ha
        refine ⟨by rw [ha], l.nodes.takeWhile (fun n => decide (n.addr ≠ a)), ?_⟩
        rw [← hdrop, List.takeWhile_append_dropWhile]

theorem get_eq (h : l.nodes = pre ++ n :: post) : get l ⟨some n.addr⟩ = .ok n.payload := by
  simp [get, deref_eq h]

theorem next_eq (h : l.nodes = pre ++ n :: post) :
    next l ⟨some n.addr⟩ = .ok (⟨post.head?.map LLNode.addr⟩, post.head?.isSome) := by
  simp [next, deref_eq h]

theorem modify_nodes (h : l.nodes = pre ++ n :: post) (f : α → α) :
    (l.modify (some n.addr) f).nodes = pre ++ ⟨n.addr, f n.payload⟩ :: post := by
  have hkeep (ns : List (LLNode α)) (hns : ∀ m ∈ ns, m.addr ≠ n.addr) :
      ns.map (fun m => if some m.addr = some n.addr then ⟨m.addr, f m.payload⟩ else m) = ns := by
    conv_rhs => rw [← List.map_id ns]
    exact List.map_congr_left fun m hm => by simp [hns m hm]
  simp only [LinkedList.modify, h, List.map_append, List.map_cons, hkeep pre (addr_ne_before h),
    hkeep post (addr_ne_after h), if_true]

theorem unlink_nodes (h : l.nodes = pre ++ n :: post) : (l.unlink n.addr).nodes = pre ++ post := by
  have hpre : ∀ m ∈ pre, ¬decide (m.addr = n.addr) = true := fun m hm => by
    simpa using addr_ne_before h m hm
  simp [LinkedList.unlink, h, List.eraseP_append_right _ hpre]

theorem pop_eq (h : l.nodes = n :: post) : ∃ l', l.pop = some (n.payload, l') ∧ l'.nodes = post := by
  obtain ⟨nodes, distinct⟩ := l
  cases h
  exact ⟨_, rfl, rfl⟩

theorem slice_eq (h : l.nodes = pre ++ [n]) :
    ∃ l', l.slice = some (n.payload, l') ∧ l'.nodes = pre := by
  refine ⟨l.dropTail, ?_, ?_⟩
  · rw [LinkedList.slice, h, List.getLast?_concat, Option.map_some]
  · exact (congrArg List.dropLast h).trans List.dropLast_concat

/-- After a removal the iterator is on the successor, on the predecessor when
the tail was removed, and invalid when the list became empty. -/
theorem remove_spec (h : l.nodes = pre ++ n :: post) :
    ∃ l', remove l ⟨some n.addr⟩ =
        .ok (l', ⟨(post.head?.or pre.getLast?).map LLNode.addr⟩, !(pre ++ post).isEmpty) ∧
      l'.nodes = pre ++ post := by
  have hlen : l.numElements = pre.length + (post.length + 1) := by simp [LinkedList.numElements, h]
  simp only [remove, deref_eq h, Run.ok_bind, Run.pure_eq_ok]
  cases pre with
  | nil =>
      cases post with
      | nil => exact ⟨LinkedList.allocate, by simp [hlen], rfl⟩
      | cons m post =>
          obtain ⟨l', hpop, hl'⟩ := pop_eq h
          exact ⟨l', by simp [hlen, h, hpop, hl'], hl'⟩
  | cons m pre =>
      have hm : m.addr ≠ n.addr := addr_ne_before h m (by simp)
      rcases List.eq_nil_or_concat post with rfl | ⟨post, last, rfl⟩
      · obtain ⟨l', hslice, hl'⟩ := slice_eq h
        exact ⟨l', by simp [hlen, h, hm, hslice, hl', List.getLast?_cons], by simpa using hl'⟩
      · have hlast : last.addr ≠ n.addr := addr_ne_after h last (by simp)
        have htail : l.nodes.getLast?.map LLNode.addr = some last.addr := by
          rw [h, List.concat_eq_append, ← List.cons_append, ← List.append_assoc, List.getLast?_concat]
          rfl
        have hhead : l.nodes.head?.map LLNode.addr = some m.addr := by rw [h]; rfl
        refine ⟨_, ?_, unlink_nodes h⟩
        rw [htail, hhead, if_neg (by simp only [hlen, List.length_cons]; omega), if_neg (by simpa using hm),
          if_neg (by simpa using hlast)]
        simp

theorem remove_ok {it it' : LLIterator} {l' : LinkedList α} {b : Bool}
    (h : remove l it = .ok (l', it', b)) :
    l'.nodes.Sublist l.nodes ∧ l'.numElements + 1 = l.numElements := by
  have hd : ∃ n rest, deref l it = .ok (n, rest) := by
    obtain ⟨⟨n, rest⟩, hd, _⟩ := Run.bind_eq_ok.mp h
    exact ⟨n, rest, hd⟩
  obtain ⟨n, rest, hd⟩ := hd
  obtain ⟨rfl, pre, hl⟩ := deref_ok hd
  obtain ⟨l₁, hr, hl₁⟩ := remove_spec hl
  obtain ⟨rfl, _⟩ : l₁ = l' ∧ _ := by simpa [hr] using h
  refine ⟨?_, ?_⟩
  · rw [hl, hl₁]
    exact (List.sublist_cons_self _ _).append_left _
  · simp only [LinkedList.numElements, hl, hl₁, List.length_append, List.length_cons]
    omega

end LLIterator

end SearchEngine
