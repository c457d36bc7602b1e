import SearchEngine.PointerList

namespace SearchEngine.PointerList

open DoublyLinked

variable {α : Type}

/-- The comparator of LinkedList.h for an order in which payloads may be
equal without being the same. -/
structure Compares (comparator : α → α → Int) (le : α → α → Prop) : Prop where
  total : ∀ a b, le a b ∨ le b a
  trans : ∀ a b c, le a b → le b c → le a c
  less : ∀ a b, comparator a b = -1 ↔ ¬le b a
  equal : ∀ a b, comparator a b = 0 ↔ le a b ∧ le b a
  greater : ∀ a b, comparator a b = 1 ↔ ¬le a b

def InOrder (ascending : Bool) (le : α → α → Prop) (a b : α) : Prop := if ascending then le a b else le b a

abbrev payloads (ns : List (Addr × α)) : List α := ns.map Prod.snd

section

variable {comparator : α → α → Int} {le : α → α → Prop} {ascending : Bool}

/-- The sort exchanges two neighbours exactly when they are out of order, so
never two that compare equal. -/
theorem Compares.exchanges_iff (h : Compares comparator le) (a b : α) :
    LinkedList.exchanges ascending comparator a b = true ↔ ¬InOrder ascending le a b := by
  have hvalue : comparator a b = -1 ∨ comparator a b = 0 ∨ comparator a b = 1 := by
    rw [h.less, h.equal, h.greater]
    tauto
  cases ascending with
  | true =>
      rw [InOrder, if_pos rfl, ← h.greater]
      simp only [LinkedList.exchanges, if_true, decide_eq_true_eq]
      omega
  | false =>
      rw [InOrder, if_neg (by decide), ← h.less]
      simp only [LinkedList.exchanges, if_false, decide_eq_true_eq, Bool.false_eq_true]
      omega

theorem Compares.inOrder_total (h : Compares comparator le) (a b : α) :
    InOrder ascending le a b ∨ InOrder ascending le b a := by
  cases ascending with
  | true => exact h.total a b
  | false => exact h.total b a

theorem Compares.inOrder_trans (h : Compares comparator le) {a b c : α} (hab : InOrder ascending le a b)
    (hbc : InOrder ascending le b c) : InOrder ascending le a c := by
  cases ascending with
  | true => exact h.trans a b c hab hbc
  | false => exact h.trans c b a hbc hab

theorem Compares.exchanges_asymm (h : Compares comparator le) (a b : α)
    (hab : LinkedList.exchanges ascending comparator a b = true) :
    LinkedList.exchanges ascending comparator b a = false := by
  apply Bool.eq_false_of_not_eq_true
  intro hba
  rw [h.exchanges_iff] at hab hba
  exact (h.inOrder_total a b).elim hab hba

/-- Two payloads that compare equal to a third are never exchanged. -/
theorem Compares.exchanges_equal (h : Compares comparator le) (x a b : α)
    (hab : LinkedList.exchanges ascending comparator a b = true) (ha : decide (comparator x a = 0) = true) :
    decide (comparator x b = 0) = false := by
  rw [h.exchanges_iff] at hab
  rw [decide_eq_true_eq, h.equal] at ha
  rw [decide_eq_false_iff_not, h.equal]
  rintro ⟨hxb, hbx⟩
  apply hab
  cases ascending with
  | true => exact h.trans a x b ha.2 hxb
  | false => exact h.trans b x a hbx ha.1

end

/-- Passes that are allowed but not needed change nothing. -/
theorem sortLoop_mono {exchange : α → α → Bool} {passes passes' : Nat} {l l' : PointerList α}
    (h : sortLoop exchange passes l = .ok l') (hle : passes ≤ passes') : sortLoop exchange passes' l = .ok l' := by
  induction passes generalizing passes' l with
  | zero => cases h
  | succ passes ih =>
      obtain ⟨passes', rfl⟩ := Nat.exists_eq_add_one_of_ne_zero (Nat.ne_zero_of_lt hle)
      obtain ⟨⟨heap, swapped⟩, hpass, hrest⟩ := Run.bind_eq_ok.mp h
      rw [sortLoop, hpass, Run.ok_bind]
      cases swapped with
      | true => exact ih hrest (Nat.le_of_succ_le_succ hle)
      | false => exact hrest

/-- The sort ends in both directions, and all it does is to put the payloads
in order, those that compare equal as they were. -/
theorem sort_stable {comparator : α → α → Int} {le : α → α → Prop} (hcmp : Compares comparator le)
    {l : PointerList α} {ns : List (Addr × α)} (h : Shape l ns) (ascending : Bool) :
    ∃ bound l' ns', (∀ passes, bound ≤ passes → sort passes l ascending comparator = .ok l') ∧
      Shape l' ns' ∧ addrs ns' = addrs ns ∧ l'.numElements = l.numElements ∧ l'.head = l.head ∧ l'.tail = l.tail ∧
      (payloads ns').Perm (payloads ns) ∧ (payloads ns').Pairwise (InOrder ascending le) ∧
      ∀ x, (payloads ns').filter (fun y => comparator x y = 0) = (payloads ns).filter fun y => comparator x y = 0 := by
  by_cases hfew : l.numElements < 2
  · refine ⟨0, l, ns, fun passes _ => ?_, h, rfl, rfl, rfl, rfl, .rfl, ?_, fun _ => rfl⟩
    · rw [sort, if_pos hfew]
    · rw [h.count] at hfew
      match ns with
      | [] => exact .nil
      | [_] => exact List.pairwise_singleton _ _
      | _ :: _ :: ns => exact absurd hfew (by simp)
  · have hne : ns ≠ [] := by
      rintro rfl
      rw [h.count] at hfew
      exact hfew (Nat.zero_lt_succ 1)
    obtain ⟨bound, hbound⟩ : ∃ bound, BubbleSort.inversions (LinkedList.exchanges ascending comparator)
        (payloads ns) < bound := ⟨_, Nat.lt_succ_self _⟩
    obtain ⟨ps, hsort, hperm, hchain⟩ := BubbleSort.sort_spec hcmp.exchanges_asymm bound (payloads ns) hbound
    have hrun := sortLoop_spec (LinkedList.exchanges ascending comparator) bound h hne
    rw [hsort] at hrun
    obtain ⟨l', ns', hloop, hshape, haddrs, rfl, _⟩ := hrun
    have hinOrder : (payloads ns').IsChain (InOrder ascending le) := by
      apply hchain.imp
      intro a b hab
      by_contra hout
      rw [(hcmp.exchanges_iff a b).mpr hout] at hab
      cases hab
    refine ⟨bound, l', ns', fun passes hle => ?_, hshape, haddrs, ?_, ?_, ?_, hperm, ?_, ?_⟩
    · rw [sort, if_neg hfew]
      exact sortLoop_mono hloop hle
    · have hlen := congrArg List.length haddrs
      simp only [addrs, List.length_map] at hlen
      rw [h.count, hshape.count, hlen]
    · rw [h.head, hshape.head, first_of_addrs haddrs]
    · rw [h.tail, hshape.tail, last_eq_getLast?, last_eq_getLast?, haddrs]
    · have htrans : IsTrans α (InOrder ascending le) := ⟨fun a b c => hcmp.inOrder_trans⟩
      exact List.isChain_iff_pairwise.mp hinOrder
    · intro x
      exact BubbleSort.sort_filter (hcmp.exchanges_equal x) hsort

/-- The two payloads with the key 2 stay as they were pushed. -/
theorem sort_stable_three : ∃ (l : PointerList (Nat × Char)) (ns : List (Addr × (Nat × Char))),
    Shape l ns ∧ payloads ns = [(2, 'a'), (1, 'b'), (2, 'c')] ∧
    ∃ bound l' ns', (∀ passes, bound ≤ passes →
        sort passes l true (fun a b => if a.1 < b.1 then -1 else if a.1 = b.1 then 0 else 1) = .ok l') ∧
      Shape l' ns' ∧ (payloads ns').Pairwise (fun a b => a.1 ≤ b.1) ∧
      (payloads ns').filter (fun y => y.1 = 2) = [(2, 'a'), (2, 'c')] := by
  have hcmp : Compares (fun a b : Nat × Char => if a.1 < b.1 then -1 else if a.1 = b.1 then 0 else 1)
      fun a b => a.1 ≤ b.1 := by
    refine ⟨fun a b => Nat.le_total a.1 b.1, fun a b c => Nat.le_trans, ?_, ?_, ?_⟩ <;>
      grind
  obtain ⟨l₁, _, h₁, _⟩ := push_spec allocate_shape (2, 'c')
  obtain ⟨l₂, _, h₂, _⟩ := push_spec h₁ (1, 'b')
  obtain ⟨l₃, _, h₃, _⟩ := push_spec h₂ (2, 'a')
  obtain ⟨bound, l', ns', hsort, hshape, _, _, _, _, _, hinOrder, hequal⟩ := sort_stable hcmp h₃ true
  refine ⟨l₃, _, h₃, rfl, bound, l', ns', hsort, hshape, hinOrder, ?_⟩
  have htwo := hequal (2, 'd')
  have hsame (y : Nat × Char) : (if 2 < y.1 then (-1 : Int) else if 2 = y.1 then 0 else 1) = 0 ↔ y.1 = 2 := by
    grind
  simp only [hsame] at htwo
  rw [htwo]
  rfl

end SearchEngine.PointerList
