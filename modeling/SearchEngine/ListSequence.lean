import SearchEngine.PointerList
import SearchEngine.Library.Simulation

namespace SearchEngine.ListSequence

open Simulation DoublyLinked

variable {α : Type}

inductive Op (α : Type)
  | push (payload : α)
  | append (payload : α)
  | pop
  | slice
  | sort (passes : Nat) (ascending : Bool) (comparator : α → α → Int)
  | iterator (i : Nat)
  | isValid (i : Nat)
  | next (i : Nat)
  | get (i : Nat)
  | remove (i : Nat)
  | rewind (i : Nat)

/-- What a call gives back: a missing payload goes with the result false. -/
inductive Reply (α : Type)
  | done
  | taken (payload : Option α)
  | valid (b : Bool)
  | got (payload : α)
  | removed (freed : α) (nonempty : Bool)

/-- A list and the iterators its client holds. An iterator is undefined until
it is manufactured, and again after the list was mutated. -/
structure State (α : Type) where
  list : PointerList α
  iters : Nat → Option LLIterator

namespace State

def init : State α := ⟨.allocate, fun _ => none⟩

def mutated (list : PointerList α) : State α := ⟨list, fun _ => none⟩

def iter (s : State α) (i : Nat) : Run LLIterator :=
  match s.iters i with
  | none => .error .badAccess
  | some it => .ok it

/-- Using an iterator that is undefined is the client's error. Removing a node
leaves the other iterators on that node undefined. -/
def step (s : State α) : Op α → Run (State α × Reply α)
  | .push payload => do
      let list ← s.list.push payload
      return (mutated list, .done)
  | .append payload => do
      let list ← s.list.append payload
      return (mutated list, .done)
  | .pop => do
      match ← s.list.pop with
      | (_, none) => return (s, .taken none)
      | (list, some payload) => return (mutated list, .taken (some payload))
  | .slice => do
      match ← s.list.slice with
      | (_, none) => return (s, .taken none)
      | (list, some payload) => return (mutated list, .taken (some payload))
  | .sort passes ascending comparator => do
      let list ← PointerList.sort passes s.list ascending comparator
      return (mutated list, .done)
  | .iterator i => return (⟨s.list, Function.update s.iters i (some (PointerList.LLIterator.allocate s.list))⟩, .done)
  | .isValid i => do
      let it ← s.iter i
      return (s, .valid it.isValid)
  | .next i => do
      let it ← s.iter i
      let (it, more) ← PointerList.LLIterator.next s.list it
      return (⟨s.list, Function.update s.iters i (some it)⟩, .valid more)
  | .get i => do
      let it ← s.iter i
      let payload ← PointerList.LLIterator.get s.list it
      return (s, .got payload)
  | .remove i => do
      let it ← s.iter i
      let (list, freed, it', nonempty) ← PointerList.LLIterator.remove s.list it
      let others := fun j => if s.iters j = some it then none else s.iters j
      return (⟨list, Function.update others i (some it')⟩, .removed freed nonempty)
  | .rewind i => do
      let _ ← s.iter i
      return (⟨s.list, Function.update s.iters i (some (PointerList.LLIterator.rewind s.list))⟩, .done)

end State

/-- What LinkedList.h describes: a sequence of payloads, and iterators as
positions in it, the length being the position past the end. -/
structure Sequence (α : Type) where
  payloads : List α
  cursors : Nat → Option Nat

namespace Sequence

def init : Sequence α := ⟨[], fun _ => none⟩

def changed (payloads : List α) : Sequence α := ⟨payloads, fun _ => none⟩

def cursor (q : Sequence α) (i : Nat) : Run Nat :=
  match q.cursors i with
  | none => .error .badAccess
  | some pos => .ok pos

/-- Another iterator after the element at pos is gone. -/
def shift (pos other : Nat) : Option Nat :=
  if other = pos then none else if pos < other then some (other - 1) else some other

/-- The successor when there is one, else the predecessor, else the end of the
empty sequence. -/
def afterRemoval (pos length : Nat) : Nat := if pos < length then pos else pos - 1

def step (q : Sequence α) : Op α → Run (Sequence α × Reply α)
  | .push payload => do
      let _ ← intAdd q.payloads.length 1
      return (changed (payload :: q.payloads), .done)
  | .append payload => do
      let _ ← intAdd q.payloads.length 1
      return (changed (q.payloads ++ [payload]), .done)
  | .pop =>
      match q.payloads with
      | [] => return (q, .taken none)
      | payload :: rest => return (changed rest, .taken (some payload))
  | .slice =>
      match q.payloads.getLast? with
      | none => return (q, .taken none)
      | some payload => return (changed q.payloads.dropLast, .taken (some payload))
  | .sort passes ascending comparator =>
      if q.payloads.length < 2 then return (changed q.payloads, .done)
      else
        match BubbleSort.sort (LinkedList.exchanges ascending comparator) passes q.payloads with
        | none => .error .outOfFuel
        | some payloads => return (changed payloads, .done)
  | .iterator i => return (⟨q.payloads, Function.update q.cursors i (some 0)⟩, .done)
  | .isValid i => do
      let pos ← q.cursor i
      return (q, .valid (decide (pos < q.payloads.length)))
  | .next i => do
      let pos ← q.cursor i
      verify333 (pos < q.payloads.length)
      return (⟨q.payloads, Function.update q.cursors i (some (pos + 1))⟩, .valid (decide (pos + 1 < q.payloads.length)))
  | .get i => do
      let pos ← q.cursor i
      match q.payloads[pos]? with
      | none => .error .verify333
      | some payload => return (q, .got payload)
  | .remove i => do
      let pos ← q.cursor i
      match q.payloads[pos]? with
      | none => .error .verify333
      | some payload =>
          let rest := q.payloads.eraseIdx pos
          let others := fun j => (q.cursors j).bind (shift pos)
          return (⟨rest, Function.update others i (some (afterRemoval pos rest.length))⟩,
            .removed payload (!rest.isEmpty))
  | .rewind i => do
      let _ ← q.cursor i
      return (⟨q.payloads, Function.update q.cursors i (some 0)⟩, .done)

end Sequence

/-- The shape of the list and its record: the nodes at the addresses as, in
order, hold the payloads. -/
structure WellFormed (list : PointerList α) (as : List Addr) (payloads : List α) : Prop where
  count : as.length = list.numElements
  distinct : as.Nodup
  headNull : list.head = none ↔ list.numElements = 0
  tailNull : list.tail = none ↔ list.numElements = 0
  head : list.head = as.head?
  tail : list.tail = as.getLast?
  size : payloads.length = list.numElements
  cell : ∀ i a, as[i]? = some a → ∃ c, list.heap.load a = some c ∧ payloads[i]? = some c.payload ∧
    c.next = as[i + 1]? ∧ c.prev = if i = 0 then none else as[i - 1]?

/-- Each iterator points at the node of its cursor's position. -/
def Tracks (iters : Nat → Option LLIterator) (cursors : Nat → Option Nat) (as : List Addr) : Prop :=
  ∀ i, iters i = (cursors i).map (fun pos => ⟨as[pos]?⟩) ∧ ∀ pos, cursors i = some pos → pos ≤ as.length

structure Represents (s : State α) (q : Sequence α) (ns : List (Addr × α)) : Prop where
  shape : s.list.Shape ns
  payloads : q.payloads = ns.map Prod.snd
  tracks : Tracks s.iters q.cursors (addrs ns)

theorem Represents.wellFormed {s : State α} {q : Sequence α} {ns : List (Addr × α)} (h : Represents s q ns) :
    WellFormed s.list (addrs ns) q.payloads where
  count := by simp [h.shape.count]
  distinct := h.shape.distinct
  headNull := by rw [h.shape.head, first_eq_none, h.shape.count, List.length_eq_zero_iff]
  tailNull := by rw [h.shape.tail, last_eq_none, h.shape.count, List.length_eq_zero_iff]
  head := by
    rw [h.shape.head]
    cases ns <;> rfl
  tail := by rw [h.shape.tail, last_eq_getLast?, Option.or_none]
  size := by simp [h.payloads, h.shape.count]
  cell := by
    intro i a hi
    rw [List.getElem?_map] at hi
    obtain ⟨n, hn, rfl⟩ := Option.map_eq_some_iff.mp hi
    refine ⟨_, h.shape.linked.getElem? hn, ?_, ?_, rfl⟩
    · simp [h.payloads, hn]
    · simp

theorem tracks_none (as : List Addr) : Tracks (fun _ => none) (fun _ => none) as := by
  intro i
  simp

theorem init_represents : Represents (State.init : State α) Sequence.init [] :=
  ⟨PointerList.allocate_shape, rfl, tracks_none _⟩

theorem mutated_represents {list : PointerList α} {payloads : List α} {ns : List (Addr × α)} (h : list.Shape ns)
    (hp : payloads = ns.map Prod.snd) : Represents (State.mutated list) (Sequence.changed payloads) ns :=
  ⟨h, hp, tracks_none _⟩

section

variable {s : State α} {q : Sequence α} {ns : List (Addr × α)}

theorem Represents.length (h : Represents s q ns) : q.payloads.length = ns.length := by
  simp [h.payloads]

/-- Placing one iterator at a position. -/
theorem Represents.place (h : Represents s q ns) (i : Nat) {pos : Nat} (hpos : pos ≤ ns.length) :
    Represents ⟨s.list, Function.update s.iters i (some ⟨(addrs ns)[pos]?⟩)⟩
      ⟨q.payloads, Function.update q.cursors i (some pos)⟩ ns := by
  refine ⟨h.shape, h.payloads, fun j => ?_⟩
  by_cases hj : j = i
  · subst hj
    simp [hpos]
  · simpa [hj] using h.tracks j

theorem head_eq (ns : List (Addr × α)) : first ns none = (addrs ns)[0]? := by
  cases ns <;> rfl

/-- An iterator that the client holds, with its position. -/
theorem iter_agrees (h : Represents s q ns) (i : Nat) :
    (s.iter i = .error .badAccess ∧ q.cursor i = .error .badAccess) ∨
      ∃ pos, s.iter i = .ok ⟨(addrs ns)[pos]?⟩ ∧ q.cursor i = .ok pos := by
  obtain ⟨hi, _⟩ := h.tracks i
  cases hc : q.cursors i with
  | none =>
      rw [hc] at hi
      exact .inl ⟨by simp [State.iter, hi], by simp [Sequence.cursor, hc]⟩
  | some pos =>
      rw [hc] at hi
      exact .inr ⟨pos, by simp [State.iter, hi], by simp [Sequence.cursor, hc]⟩

theorem isSome_getElem? (as : List Addr) (pos : Nat) : as[pos]?.isSome = decide (pos < as.length) := by
  rw [Bool.eq_iff_iff]
  simp

theorem split_at_pos {pos : Nat} (hpos : pos < ns.length) :
    ∃ pre n post, ns = pre ++ n :: post ∧ pre.length = pos ∧ (addrs ns)[pos]? = some n.1 := by
  refine ⟨ns.take pos, ns[pos], ns.drop (pos + 1), ?_, by simp; omega, by simp [hpos]⟩
  rw [← List.drop_eq_getElem_cons hpos, List.take_append_drop]

theorem eraseIdx_split {β : Type} (pre post : List β) (b : β) :
    (pre ++ b :: post).eraseIdx pre.length = pre ++ post := by
  induction pre with
  | nil => rfl
  | cons c pre ih => exact congrArg (c :: ·) ih

/-- The iterators after a removal: the one it went through on a neighbour, the
others where they were. -/
theorem tracks_remove {iters : Nat → Option LLIterator} {cursors : Nat → Option Nat} {pre post : List Addr} {a : Addr}
    (hd : (pre ++ a :: post).Nodup) (h : Tracks iters cursors (pre ++ a :: post)) (i : Nat) :
    Tracks (Function.update (fun j => if iters j = some ⟨some a⟩ then none else iters j) i
        (some ⟨post.head?.or pre.getLast?⟩))
      (Function.update (fun j => (cursors j).bind (Sequence.shift pre.length)) i
        (some (Sequence.afterRemoval pre.length (pre ++ post).length)))
      (pre ++ post) := by
  have herase : pre ++ post = (pre ++ a :: post).eraseIdx pre.length := (eraseIdx_split pre post a).symm
  have ha : (pre ++ a :: post)[pre.length]? = some a := by simp
  intro j
  by_cases hj : j = i
  · subst hj
    simp only [Function.update_self, Option.map_some, Sequence.afterRemoval]
    refine ⟨?_, ?_⟩
    · cases post with
      | nil => simp [List.getLast?_eq_getElem?]
      | cons k post => simp
    · intro pos hpos
      obtain rfl := Option.some.inj hpos
      simp only [List.length_append]
      split <;> omega
  · obtain ⟨hit, hle⟩ := h j
    simp only [Function.update_of_ne hj]
    cases hc : cursors j with
    | none => simp [hit, hc]
    | some pos =>
        have hpos := hle pos hc
        have hsame : (pre ++ a :: post)[pos]? = some a ↔ pos = pre.length := by
          constructor
          · intro he
            obtain ⟨hlt, _⟩ := List.getElem?_eq_some_iff.mp ha
            exact ((List.getElem?_inj hlt hd).mp (ha.trans he.symm)).symm
          · rintro rfl
            exact ha
        rw [hit, hc]
        simp only [Option.map_some, Option.some.injEq, LLIterator.mk.injEq, hsame, Option.bind_some, Sequence.shift]
        by_cases he : pos = pre.length
        · simp [he]
        · have hlen : (pre ++ a :: post).length = pre.length + (post.length + 1) := by simp
          have hlen' : (pre ++ post).length = pre.length + post.length := by simp
          rw [hlen] at hpos
          rw [if_neg he, if_neg he, hlen']
          by_cases hlt : pre.length < pos
          · obtain ⟨pos, rfl⟩ : ∃ k, pos = k + 1 := ⟨pos - 1, by omega⟩
            have hge : ¬pos < pre.length := by omega
            simp only [hlt, if_true, Option.map_some, Nat.add_sub_cancel, herase, List.getElem?_eraseIdx, hge, if_false,
              Option.some.injEq, forall_eq', true_and]
            omega
          · have hpos' : pos < pre.length := by omega
            simp only [hlt, if_false, Option.map_some, herase, List.getElem?_eraseIdx, hpos', if_true,
              Option.some.injEq, forall_eq', true_and]
            omega

theorem agrees_bind_intAdd {s' : State α} {q' : Sequence α} {R : State α → Sequence α → Prop} (n : Nat)
    (out : Reply α) (h : R s' q') :
    Agrees R (intAdd n 1 >>= fun _ => .ok (s', out)) (intAdd n 1 >>= fun _ => .ok (q', out)) := by
  cases intAdd n 1 with
  | error e => exact .error e
  | ok k => exact .ok out h

theorem mem_addrs_remove {pre post : List (Addr × α)} {n : Addr × α} (hd : (addrs (pre ++ n :: post)).Nodup)
    (a : Addr) : a ∈ addrs (pre ++ post) ↔ a ∈ addrs (pre ++ n :: post) ∧ a ≠ n.1 := by
  simp only [addrs, List.map_append, List.map_cons, List.nodup_append, List.nodup_cons] at hd
  simp only [addrs, List.map_append, List.map_cons, List.mem_append, List.mem_cons]
  constructor
  · rintro (ha | ha)
    · exact ⟨.inl ha, hd.2.2 a ha n.1 (by simp)⟩
    · exact ⟨.inr (.inr ha), fun he => hd.2.1.1 (he ▸ ha)⟩
  · rintro ⟨ha | rfl | ha, hne⟩
    · exact .inl ha
    · exact absurd rfl hne
    · exact .inr ha

/-- When the nodes of the list were the cells not yet freed, they still are. -/
def KeepsOwned (s : State α) (ns : List (Addr × α)) (s' : State α) (ns' : List (Addr × α)) : Prop :=
  s.list.heap.Owns (· ∈ addrs ns) → s'.list.heap.Owns (· ∈ addrs ns')

/-- What every call but an append leaves: the list still represents the
sequence, and the account of the nodes is kept. -/
def Kept (s : State α) (ns : List (Addr × α)) (s' : State α) (q' : Sequence α) : Prop :=
  ∃ ns', Represents s' q' ns' ∧ KeepsOwned s ns s' ns'

theorem Represents.kept (h : Represents s q ns) : Kept s ns s q := ⟨ns, h, fun hown => hown⟩

/-- A call through an iterator that the client does not hold fails on both
sides. -/
theorem agrees_through_iter (h : Represents s q ns) (i : Nat) {R : State α → Sequence α → Prop}
    {f : LLIterator → Run (State α × Reply α)} {g : Nat → Run (Sequence α × Reply α)}
    (hcall : ∀ pos, Agrees R (f ⟨(addrs ns)[pos]?⟩) (g pos)) : Agrees R (s.iter i >>= f) (q.cursor i >>= g) := by
  rcases iter_agrees h i with ⟨hi, hc⟩ | ⟨pos, hi, hc⟩
  · rw [hi, hc]
    exact .error _
  · rw [hi, hc]
    exact hcall pos

theorem step_push (h : Represents s q ns) (payload : α) :
    Agrees (Kept s ns) (s.step (.push payload)) (q.step (.push payload)) := by
  obtain ⟨l', hpush, hshape, hsame⟩ := PointerList.push_spec h.shape payload
  have hR := mutated_represents hshape (show payload :: q.payloads = _ by simp [h.payloads])
  simp only [State.step, Sequence.step, h.length, hpush, bind_assoc, Run.ok_bind, Run.pure_eq_ok]
  refine agrees_bind_intAdd _ _ ⟨_, hR, fun hown => ?_⟩
  exact (hown.malloc _ fun a => by simp [or_comm]).of_sameAccount hsame

/-- An append frees the node that it has linked. -/
theorem step_append (h : Represents s q ns) (payload : α) :
    Agrees (fun s' q' => ∃ ns', Represents s' q' ns') (s.step (.append payload)) (q.step (.append payload)) := by
  obtain ⟨l', happend, hshape, _⟩ := PointerList.append_spec h.shape payload
  have hR := mutated_represents hshape (show q.payloads ++ [payload] = _ by simp [h.payloads])
  simp only [State.step, Sequence.step, h.length, happend, bind_assoc, Run.ok_bind, Run.pure_eq_ok]
  exact agrees_bind_intAdd _ _ ⟨_, hR⟩

theorem step_pop (h : Represents s q ns) : Agrees (Kept s ns) (s.step .pop) (q.step .pop) := by
  simp only [State.step, Sequence.step, h.payloads]
  cases ns with
  | nil =>
      rw [PointerList.pop_nil h.shape]
      exact .ok _ h.kept
  | cons n ns =>
      obtain ⟨l', hpop, hshape, hsame⟩ := PointerList.pop_spec h.shape
      have howned := @mem_addrs_remove α [] ns n h.shape.distinct
      rw [hpop]
      refine .ok _ ⟨_, mutated_represents hshape rfl, fun hown => ?_⟩
      exact (hown.free (by simp) howned).of_sameAccount hsame

theorem step_slice (h : Represents s q ns) : Agrees (Kept s ns) (s.step .slice) (q.step .slice) := by
  simp only [State.step, Sequence.step, h.payloads]
  rcases List.eq_nil_or_concat ns with rfl | ⟨ns, n, rfl⟩
  · rw [PointerList.slice_nil h.shape]
    exact .ok _ h.kept
  · rw [List.concat_eq_append] at h ⊢
    obtain ⟨l', hslice, hshape, hsame⟩ := PointerList.slice_spec h.shape
    have howned := @mem_addrs_remove α ns [] n h.shape.distinct
    rw [hslice, List.map_append, List.map_singleton, List.getLast?_concat]
    refine .ok _ ⟨_, mutated_represents hshape (by simp), fun hown => ?_⟩
    exact (hown.free (by simp) (by simpa using howned)).of_sameAccount hsame

theorem step_sort (h : Represents s q ns) (passes : Nat) (ascending : Bool) (comparator : α → α → Int) :
    Agrees (Kept s ns) (s.step (.sort passes ascending comparator)) (q.step (.sort passes ascending comparator)) := by
  simp only [State.step, Sequence.step, PointerList.sort, h.shape.count, h.length]
  by_cases hfew : ns.length < 2
  · rw [if_pos hfew, if_pos hfew]
    exact .ok _ ⟨_, mutated_represents h.shape h.payloads, fun hown => hown⟩
  · have hpos : ns ≠ [] := by
      rintro rfl
      exact hfew Nat.two_pos
    have hsort := PointerList.sortLoop_spec (LinkedList.exchanges ascending comparator) passes h.shape hpos
    rw [if_neg hfew, if_neg hfew, h.payloads]
    cases hsorted : BubbleSort.sort (LinkedList.exchanges ascending comparator) passes (ns.map Prod.snd) with
    | none =>
        rw [hsorted] at hsort
        rw [hsort]
        exact .error _
    | some payloads =>
        rw [hsorted] at hsort
        obtain ⟨l', ns', hok, hshape, haddrs, hps, hsame⟩ := hsort
        rw [hok]
        refine .ok _ ⟨_, mutated_represents hshape hps.symm, fun hown => ?_⟩
        exact haddrs ▸ hown.of_sameAccount hsame

theorem step_iterator (h : Represents s q ns) (i : Nat) :
    Agrees (Kept s ns) (s.step (.iterator i)) (q.step (.iterator i)) := by
  have hplace := h.place i (Nat.zero_le _)
  simp only [State.step, Sequence.step, PointerList.LLIterator.allocate, h.shape.head, head_eq]
  exact .ok _ ⟨_, hplace, fun hown => hown⟩

theorem step_isValid (h : Represents s q ns) (i : Nat) :
    Agrees (Kept s ns) (s.step (.isValid i)) (q.step (.isValid i)) := by
  refine agrees_through_iter h i fun pos => ?_
  have hvalid : (⟨(addrs ns)[pos]?⟩ : LLIterator).isValid = decide (pos < q.payloads.length) := by
    rw [LLIterator.isValid, isSome_getElem?, List.length_map, h.length]
  rw [hvalid]
  exact .ok _ h.kept

theorem step_next (h : Represents s q ns) (i : Nat) : Agrees (Kept s ns) (s.step (.next i)) (q.step (.next i)) := by
  refine agrees_through_iter h i fun pos => ?_
  rw [h.length]
  rcases Nat.lt_or_ge pos ns.length with hlt | hge
  · obtain ⟨pre, n, post, rfl, rfl, hn⟩ := split_at_pos hlt
    have hplace := h.place i (show pre.length + 1 ≤ _ from hlt)
    have hfirst : first post none = (addrs (pre ++ n :: post))[pre.length + 1]? := by
      cases post <;> simp [first]
    rw [hn, PointerList.next_spec h.shape, hfirst]
    simp only [hlt, decide_true, verify333_true, Run.ok_bind, Run.pure_eq_ok]
    have hmore : ((addrs (pre ++ n :: post))[pre.length + 1]?).isSome =
        decide (pre.length + 1 < (pre ++ n :: post).length) := by rw [isSome_getElem?, List.length_map]
    rw [hmore]
    exact .ok _ ⟨_, hplace, fun hown => hown⟩
  · have hnone : (addrs ns)[pos]? = none := by simpa using hge
    simp only [hnone, PointerList.LLIterator.next, Nat.not_lt.mpr hge]
    exact .error _

theorem step_get (h : Represents s q ns) (i : Nat) : Agrees (Kept s ns) (s.step (.get i)) (q.step (.get i)) := by
  refine agrees_through_iter h i fun pos => ?_
  rcases Nat.lt_or_ge pos ns.length with hlt | hge
  · obtain ⟨pre, n, post, rfl, rfl, hn⟩ := split_at_pos hlt
    have hpayload : q.payloads[pre.length]? = some n.2 := by simp [h.payloads]
    rw [hn, PointerList.get_spec h.shape, hpayload]
    exact .ok _ h.kept
  · have hnone : (addrs ns)[pos]? = none := by simpa using hge
    have hpayload : q.payloads[pos]? = none := by simpa [h.length] using hge
    simp only [hnone, PointerList.LLIterator.get, hpayload]
    exact .error _

theorem step_remove (h : Represents s q ns) (i : Nat) :
    Agrees (Kept s ns) (s.step (.remove i)) (q.step (.remove i)) := by
  refine agrees_through_iter h i fun pos => ?_
  rcases Nat.lt_or_ge pos ns.length with hlt | hge
  · obtain ⟨pre, n, post, rfl, rfl, hn⟩ := split_at_pos hlt
    have hpayload : q.payloads[pre.length]? = some n.2 := by simp [h.payloads]
    have hrest : q.payloads.eraseIdx pre.length = (pre ++ post).map Prod.snd := by
      have hs := eraseIdx_split (pre.map Prod.snd) (post.map Prod.snd) n.2
      simpa [h.payloads] using hs
    obtain ⟨l', hremove, hshape, hsame⟩ := PointerList.remove_spec h.shape
    have howned := mem_addrs_remove h.shape.distinct
    have htracks := h.tracks
    have hnodup := h.shape.distinct
    have hnext : first post (last none pre) = (addrs post).head?.or (addrs pre).getLast? := by
      rw [last_eq_getLast?, Option.or_none]
      cases post <;> rfl
    rw [addrs, List.map_append, List.map_cons] at htracks hnodup
    have htracks := tracks_remove hnodup htracks i
    rw [hn, hremove, hpayload, hnext]
    simp only [Run.ok_bind, Run.pure_eq_ok, hrest, List.length_map, List.isEmpty_map]
    simp only [← List.map_append, List.length_map] at htracks
    refine .ok _ ⟨_, ⟨hshape, rfl, htracks⟩, fun hown => ?_⟩
    exact (hown.free (by simp) howned).of_sameAccount hsame
  · have hnone : (addrs ns)[pos]? = none := by simpa using hge
    have hpayload : q.payloads[pos]? = none := by simpa [h.length] using hge
    simp only [hnone, PointerList.LLIterator.remove, hpayload]
    exact .error _

theorem step_rewind (h : Represents s q ns) (i : Nat) :
    Agrees (Kept s ns) (s.step (.rewind i)) (q.step (.rewind i)) := by
  have hplace := h.place i (Nat.zero_le _)
  refine agrees_through_iter h i fun pos => ?_
  simp only [PointerList.LLIterator.rewind, h.shape.head, head_eq]
  exact .ok _ ⟨_, hplace, fun hown => hown⟩

/-- One call, whatever it is, has the outcome that LinkedList.h describes, and
every call but an append keeps the account of the nodes. -/
theorem step_agrees (h : Represents s q ns) (op : Op α) :
    Agrees (fun s' q' => ∃ ns', Represents s' q' ns' ∧ ((∀ p, op ≠ .append p) → KeepsOwned s ns s' ns'))
      (s.step op) (q.step op) := by
  have hkept (hcall : Agrees (Kept s ns) (s.step op) (q.step op)) :
      Agrees (fun s' q' => ∃ ns', Represents s' q' ns' ∧ ((∀ p, op ≠ .append p) → KeepsOwned s ns s' ns'))
        (s.step op) (q.step op) :=
    hcall.mono fun s' q' ⟨ns', h', hown⟩ => ⟨ns', h', fun _ => hown⟩
  cases op with
  | push payload => exact hkept (step_push h payload)
  | append payload =>
      exact (step_append h payload).mono fun s' q' ⟨ns', h'⟩ => ⟨ns', h', fun hno => absurd rfl (hno payload)⟩
  | pop => exact hkept (step_pop h)
  | slice => exact hkept (step_slice h)
  | sort passes ascending comparator => exact hkept (step_sort h passes ascending comparator)
  | iterator i => exact hkept (step_iterator h i)
  | isValid i => exact hkept (step_isValid h i)
  | next i => exact hkept (step_next h i)
  | get i => exact hkept (step_get h i)
  | remove i => exact hkept (step_remove h i)
  | rewind i => exact hkept (step_rewind h i)

end

theorem run_represents (ops : List (Op α)) :
    Agrees (fun (s : State α) q => ∃ ns, Represents s q ns) (run State.step State.init ops)
      (run Sequence.step Sequence.init ops) := by
  refine run_agrees (fun op _ s q hR => ?_) ⟨[], init_represents⟩
  obtain ⟨ns, h⟩ := hR
  exact (step_agrees h op).mono fun s' q' ⟨ns', h', _⟩ => ⟨ns', h'⟩

/-- Whatever the client calls, the pointer structure is well formed after
every run, and the list behaves as a sequence with cursors. -/
theorem list_refines_sequence (ops : List (Op α)) :
    Agrees (fun (s : State α) q => ∃ as, WellFormed s.list as q.payloads ∧ Tracks s.iters q.cursors as)
      (run State.step State.init ops) (run Sequence.step Sequence.init ops) := by
  exact (run_represents ops).mono fun s q ⟨ns, hR⟩ => ⟨addrs ns, hR.wellFormed, hR.tracks⟩

end SearchEngine.ListSequence
