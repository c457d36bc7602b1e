import SearchEngine.ListSequence

/-! The list that the tables and the index are built on, beside the pointers
of the same source file. -/

namespace SearchEngine.ListModels

open Simulation DoublyLinked ListSequence

variable {α : Type}

/-- The calls that the clients of LinkedList.h make. -/
inductive Call (α : Type)
  | append (payload : α)
  | pop
  | slice
  | sort (ascending : Bool) (comparator : α → α → Int)
  | iterator (i : Nat)
  | isValid (i : Nat)
  | next (i : Nat)
  | get (i : Nat)
  | remove (i : Nat)

/-- The same call on the pointers, with the bound that LinkedList.sort has for
a list of n elements. -/
def Call.op (n : Nat) : Call α → Op α
  | .append payload => .append payload
  | .pop => .pop
  | .slice => .slice
  | .sort ascending comparator => .sort (n * n + 1) ascending comparator
  | .iterator i => .iterator i
  | .isValid i => .isValid i
  | .next i => .next i
  | .get i => .get i
  | .remove i => .remove i

/-- A list of LinkedList.h and the iterators its client holds. -/
structure Held (α : Type) where
  list : LinkedList α
  iters : Nat → Option LLIterator

namespace Held

def init : Held α := ⟨.allocate, fun _ => none⟩

def mutated (list : LinkedList α) : Held α := ⟨list, fun _ => none⟩

def iter (s : Held α) (i : Nat) : Run LLIterator :=
  match s.iters i with
  | none => .error .badAccess
  | some it => .ok it

def step (s : Held α) : Call α → Run (Held α × Reply α)
  | .append payload => do
      let _ ← intAdd s.list.numElements 1
      return (mutated (s.list.append payload), .done)
  | .pop =>
      match s.list.pop with
      | none => return (s, .taken none)
      | some (payload, list) => return (mutated list, .taken (some payload))
  | .slice =>
      match s.list.slice with
      | none => return (s, .taken none)
      | some (payload, list) => return (mutated list, .taken (some payload))
  | .sort ascending comparator => do
      let list ← s.list.sort ascending comparator
      return (mutated list, .done)
  | .iterator i => return (⟨s.list, Function.update s.iters i (some (LLIterator.allocate s.list))⟩, .done)
  | .isValid i => do
      let it ← s.iter i
      return (s, .valid it.isValid)
  | .next i => do
      let it ← s.iter i
      let (it, more) ← LLIterator.next s.list it
      return (⟨s.list, Function.update s.iters i (some it)⟩, .valid more)
  | .get i => do
      let it ← s.iter i
      let payload ← LLIterator.get s.list it
      return (s, .got payload)
  | .remove i => do
      let it ← s.iter i
      let freed ← LLIterator.get s.list it
      let (list, it', nonempty) ← LLIterator.remove s.list it
      let others := fun j => if s.iters j = some it then none else s.iters j
      return (⟨list, Function.update others i (some it')⟩, .removed freed nonempty)

end Held

/-- The list and its iterators stand for the sequence with its cursors. -/
structure Follows (s : Held α) (q : Sequence α) : Prop where
  payloads : q.payloads = s.list.payloads
  tracks : Tracks s.iters q.cursors (s.list.nodes.map LLNode.addr)

theorem init_follows : Follows (Held.init : Held α) Sequence.init := ⟨rfl, tracks_none _⟩

theorem mutated_follows {list : LinkedList α} {payloads : List α} (h : payloads = list.payloads) :
    Follows (Held.mutated list) (Sequence.changed payloads) := ⟨h, tracks_none _⟩

section

variable {s : Held α} {q : Sequence α}

theorem Follows.length (h : Follows s q) : q.payloads.length = s.list.numElements := by
  rw [h.payloads, LinkedList.length_payloads]

theorem Follows.place (h : Follows s q) (i : Nat) {pos : Nat} (hpos : pos ≤ s.list.numElements) :
    Follows ⟨s.list, Function.update s.iters i (some ⟨(s.list.nodes.map LLNode.addr)[pos]?⟩)⟩
      ⟨q.payloads, Function.update q.cursors i (some pos)⟩ := by
  refine ⟨h.payloads, fun j => ?_⟩
  by_cases hj : j = i
  · subst hj
    simpa [LinkedList.numElements] using hpos
  · simpa [hj] using h.tracks j

/-- A call through an iterator that the client does not hold fails on both
sides; one past the end is at no node. -/
theorem agrees_through_iter (h : Follows s q) (i : Nat) {R : Held α → Sequence α → Prop}
    {f : LLIterator → Run (Held α × Reply α)} {g : Nat → Run (Sequence α × Reply α)}
    (hnode : ∀ pre n post, s.list.nodes = pre ++ n :: post → Agrees R (f ⟨some n.addr⟩) (g pre.length))
    (hend : Agrees R (f ⟨none⟩) (g s.list.numElements)) : Agrees R (s.iter i >>= f) (q.cursor i >>= g) := by
  obtain ⟨hi, hle⟩ := h.tracks i
  cases hc : q.cursors i with
  | none =>
      have hs : s.iter i = .error .badAccess := by simp [Held.iter, hi, hc]
      have hq : q.cursor i = .error .badAccess := by simp [Sequence.cursor, hc]
      rw [hs, hq]
      exact .error _
  | some pos =>
      have hs : s.iter i = .ok ⟨(s.list.nodes.map LLNode.addr)[pos]?⟩ := by simp [Held.iter, hi, hc]
      have hq : q.cursor i = .ok pos := by simp [Sequence.cursor, hc]
      have hpos : pos ≤ s.list.nodes.length := by simpa using hle pos hc
      rw [hs, hq]
      rcases Nat.lt_or_eq_of_le hpos with hlt | rfl
      · have hsplit : s.list.nodes = s.list.nodes.take pos ++ s.list.nodes[pos] :: s.list.nodes.drop (pos + 1) := by
          rw [← List.drop_eq_getElem_cons hlt, List.take_append_drop]
        have hnode := hnode _ _ _ hsplit
        rw [List.length_take, Nat.min_eq_left hpos] at hnode
        simpa [hlt] using hnode
      · simpa [LinkedList.numElements] using hend

theorem step_pop (h : Follows s q) : Agrees Follows (s.step .pop) (q.step .pop) := by
  simp only [Held.step, Sequence.step, h.payloads]
  cases hnodes : s.list.nodes with
  | nil =>
      have hpop : s.list.pop = none := by
        obtain ⟨⟨nodes, _⟩, _⟩ := s
        cases hnodes
        rfl
      rw [hpop, LinkedList.payloads, hnodes]
      exact .ok _ h
  | cons n ns =>
      obtain ⟨l', hpop, hl'⟩ := LLIterator.pop_eq hnodes
      rw [hpop, LinkedList.payloads, hnodes]
      exact .ok _ (mutated_follows (by rw [LinkedList.payloads, hl']))

theorem step_slice (h : Follows s q) : Agrees Follows (s.step .slice) (q.step .slice) := by
  simp only [Held.step, Sequence.step, h.payloads]
  rcases List.eq_nil_or_concat s.list.nodes with hnodes | ⟨ns, n, hnodes⟩
  · rw [LinkedList.slice, LinkedList.payloads, hnodes]
    exact .ok _ h
  · rw [List.concat_eq_append] at hnodes
    obtain ⟨l', hslice, hl'⟩ := LLIterator.slice_eq hnodes
    rw [hslice, LinkedList.payloads, hnodes, List.map_append, List.map_singleton, List.getLast?_concat]
    exact .ok _ (mutated_follows (by rw [List.dropLast_concat, LinkedList.payloads, hl']))

theorem step_sort (h : Follows s q) (ascending : Bool) (comparator : α → α → Int) :
    Agrees Follows (s.step (.sort ascending comparator))
      (q.step (.sort (q.payloads.length * q.payloads.length + 1) ascending comparator)) := by
  simp only [Held.step, Sequence.step, LinkedList.sort, h.length]
  split
  · exact .ok _ (mutated_follows h.payloads)
  · rw [h.payloads]
    cases hsort : BubbleSort.sort (LinkedList.exchanges ascending comparator)
        (s.list.numElements * s.list.numElements + 1) s.list.payloads with
    | none => exact .error _
    | some ps =>
        have hlength := (BubbleSort.sort_perm hsort).length_eq
        exact .ok _ (mutated_follows (s.list.payloads_withPayloads ps (by simpa using hlength)).symm)

theorem step_remove (h : Follows s q) (i : Nat) : Agrees Follows (s.step (.remove i)) (q.step (.remove i)) := by
  refine agrees_through_iter h i (fun pre n post hnodes => ?_) ?_
  · have hpayload : q.payloads[pre.length]? = some n.payload := by
      rw [h.payloads, LinkedList.payloads, hnodes]
      simp
    have hrest : q.payloads.eraseIdx pre.length = (pre ++ post).map LLNode.payload := by
      rw [h.payloads, LinkedList.payloads, hnodes, List.map_append, List.map_append, List.map_cons]
      simpa using eraseIdx_split (pre.map LLNode.payload) (post.map LLNode.payload) n.payload
    obtain ⟨l', hremove, hl'⟩ := LLIterator.remove_spec hnodes
    have hnodup := s.list.distinct
    have htracks := h.tracks
    rw [hnodes, List.map_append, List.map_cons] at hnodup htracks
    have htracks := tracks_remove hnodup htracks i
    have hat : (post.map LLNode.addr).head?.or (pre.map LLNode.addr).getLast? =
        (post.head?.or pre.getLast?).map LLNode.addr := by
      cases post <;> simp
    rw [← List.map_append, hat] at htracks
    rw [LLIterator.get_eq hnodes, hremove, hpayload]
    simp only [Run.ok_bind, Run.pure_eq_ok, hrest, List.length_map, List.isEmpty_map]
    simp only [List.length_map] at htracks
    refine .ok _ ⟨?_, ?_⟩
    · rw [LinkedList.payloads, hl']
    · rw [hl']
      exact htracks
  · have hpayload : q.payloads[s.list.numElements]? = none := by simp [h.length]
    simp only [hpayload]
    exact .error _

/-- One call has the outcome of the sequence with cursors. -/
theorem step_agrees (h : Follows s q) (c : Call α) :
    Agrees Follows (s.step c) (q.step (c.op q.payloads.length)) := by
  cases c with
  | append payload =>
      simp only [Held.step, Call.op, Sequence.step, h.length]
      cases intAdd s.list.numElements 1 with
      | error e => exact .error e
      | ok k => exact .ok _ (mutated_follows (by rw [h.payloads, LinkedList.payloads_append]))
  | pop => exact step_pop h
  | slice => exact step_slice h
  | sort ascending comparator => exact step_sort h ascending comparator
  | iterator i =>
      have hplace := h.place i (Nat.zero_le _)
      rw [← List.head?_eq_getElem?, List.head?_map] at hplace
      exact .ok _ hplace
  | isValid i =>
      refine agrees_through_iter h i (fun pre n post hnodes => ?_) ?_
      · have hvalid : decide (pre.length < q.payloads.length) = true := by
          simp [h.length, LinkedList.numElements, hnodes]
        rw [hvalid]
        exact .ok _ h
      · have hvalid : decide (s.list.numElements < q.payloads.length) = false := by simp [h.length]
        rw [hvalid]
        exact .ok _ h
  | next i =>
      refine agrees_through_iter h i (fun pre n post hnodes => ?_) ?_
      · have hlength : q.payloads.length = pre.length + (post.length + 1) := by
          simp [h.length, LinkedList.numElements, hnodes]
        have hplace := h.place i (show pre.length + 1 ≤ s.list.numElements by rw [← h.length]; omega)
        have hat : (s.list.nodes.map LLNode.addr)[pre.length + 1]? = post.head?.map LLNode.addr := by
          rw [hnodes]
          cases post <;> simp
        have hmore : decide (pre.length + 1 < q.payloads.length) = post.head?.isSome := by
          rw [hlength]
          cases post <;> simp
        have hin : decide (pre.length < q.payloads.length) = true := by
          rw [hlength]
          simp
        rw [hat] at hplace
        rw [LLIterator.next_eq hnodes, hmore, hin]
        exact .ok _ hplace
      · have hout : decide (s.list.numElements < q.payloads.length) = false := by simp [h.length]
        rw [hout]
        exact .error _
  | get i =>
      refine agrees_through_iter h i (fun pre n post hnodes => ?_) ?_
      · have hpayload : q.payloads[pre.length]? = some n.payload := by
          rw [h.payloads, LinkedList.payloads, hnodes]
          simp
        rw [LLIterator.get_eq hnodes, hpayload]
        exact .ok _ h
      · have hpayload : q.payloads[s.list.numElements]? = none := by simp [h.length]
        simp only [hpayload]
        exact .error _
  | remove i => exact step_remove h i

end

/-- The two lists hold the same payloads, and their iterators are at the same
positions. -/
def SameList (s : Held α) (p : State α) : Prop := ∃ q, Follows s q ∧ ∃ ns, Represents p q ns

/-- LinkedList and PointerList have the same replies and the same payloads in
every run. What they differ in is the account of the nodes: only the pointers
have the free that ends LinkedList_Append. -/
theorem lists_agree (calls : List (Call α)) :
    Agrees SameList (run Held.step Held.init calls)
      (run (fun p c => p.step (c.op p.list.numElements)) State.init calls) := by
  refine run_agrees (fun c _ s p hR => ?_) ⟨_, init_follows, [], init_represents⟩
  obtain ⟨q, hs, ns, hp⟩ := hR
  have hcount : p.list.numElements = q.payloads.length := by rw [hp.shape.count, hp.length]
  have hpointers : Agrees (fun p' q' => ∃ ns', Represents p' q' ns') (p.step (c.op p.list.numElements))
      (q.step (c.op p.list.numElements)) :=
    (ListSequence.step_agrees hp (c.op p.list.numElements)).mono fun _ _ ⟨ns', h', _⟩ => ⟨ns', h'⟩
  rw [hcount] at hpointers ⊢
  exact (step_agrees hs c).join hpointers

end SearchEngine.ListModels
