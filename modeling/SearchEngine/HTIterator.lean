import SearchEngine.HashTable

namespace SearchEngine

structure HTIterator where
  bucketIdx : Int
  bucketIt : Option LLIterator

namespace HTIterator

open HashTable

variable {V : Type}

def INVALID_IDX : Int := -1

/-- Both scans of the source for a bucket with elements, from index i on. -/
def firstNonempty : List (LinkedList (HTKeyValue V)) → Nat → Option Nat
  | [], _ => none
  | c :: cs, i => if c.numElements ≠ 0 then some i else firstNonempty cs (i + 1)

def allocate (ht : HashTable V) : Run HTIterator :=
  if ht.numElements = 0 then .ok ⟨INVALID_IDX, none⟩
  else
    match firstNonempty ht.buckets 0 with
    | none => .error .verify333
    | some i => .ok ⟨i, some (LLIterator.allocate (ht.chainAt i))⟩

def isValid (ht : HashTable V) (it : HTIterator) : Run Bool :=
  if 0 < ht.numElements then
    match it.bucketIt with
    | none => .error .verify333
    | some li => .ok li.isValid
  else .ok false

def next (ht : HashTable V) (it : HTIterator) : Run (HTIterator × Bool) := do
  match ← isValid ht it, it.bucketIt with
  | true, some li =>
      let (li', more) ← LLIterator.next (ht.chainAt it.bucketIdx.toNat) li
      if more then
        return (⟨it.bucketIdx, some li'⟩, true)
      else
        let idx := it.bucketIdx.toNat + 1
        match firstNonempty (ht.buckets.drop idx) idx with
        | none => return (⟨ht.numBuckets, some li'⟩, false)
        | some i => return (⟨i, some (LLIterator.allocate (ht.chainAt i))⟩, true)
  | _, _ => return (it, false)

def get (ht : HashTable V) (it : HTIterator) : Run (Option (HTKeyValue V)) := do
  match ← isValid ht it, it.bucketIt with
  | true, some li =>
      let kv ← LLIterator.get (ht.chainAt it.bucketIdx.toNat) li
      return some kv
  | _, _ => return none

/-- The iterator moves on before the pair it was on is removed by key. -/
def remove [DecidableEq V] (ht : HashTable V) (it : HTIterator) :
    Run (HashTable V × HTIterator × Option (HTKeyValue V)) := do
  match ← get ht it with
  | none => return (ht, it, none)
  | some kv =>
      let (it', _) ← next ht it
      match ← ht.remove kv.key with
      | (_, none) => .error .verify333
      | (ht', some keyvalue) =>
          verify333 (kv.key = keyvalue.key)
          verify333 (kv.value = keyvalue.value)
          return (ht', it', some keyvalue)

/-- The iterator is on the first of the pairs it still has to visit. -/
inductive Points (t : HashTable V) : HTIterator → List (HTKeyValue V) → Prop
  | empty (i : Int) (h : t.numElements = 0) : Points t ⟨i, none⟩ []
  | finished (i : Int) : Points t ⟨i, some ⟨none⟩⟩ []
  | at (i : Nat) (pre post : List (LLNode (HTKeyValue V))) (n : LLNode (HTKeyValue V))
      (h : (t.chainAt i).nodes = pre ++ n :: post) :
      Points t ⟨i, some ⟨some n.addr⟩⟩
        (n.payload :: (post.map LLNode.payload ++ (t.buckets.drop (i + 1)).flatMap LinkedList.payloads))

theorem firstNonempty_spec (t : HashTable V) (i k : Nat) (hk : k = t.buckets.length - i) :
    match firstNonempty (t.buckets.drop i) i with
    | none => (t.buckets.drop i).flatMap LinkedList.payloads = []
    | some j => ∃ n post, (t.chainAt j).nodes = n :: post ∧ i ≤ j ∧
        (t.buckets.drop i).flatMap LinkedList.payloads =
          n.payload :: (post.map LLNode.payload ++
            (t.buckets.drop (j + 1)).flatMap LinkedList.payloads) := by
  induction k generalizing i with
  | zero => simp [List.drop_eq_nil_of_le (by omega : t.buckets.length ≤ i), firstNonempty]
  | succ k ih =>
      have hi : i < t.buckets.length := by omega
      have hd : t.buckets.drop i = t.chainAt i :: t.buckets.drop (i + 1) := by
        rw [List.drop_eq_getElem_cons hi, chainAt, List.getD_eq_getElem?_getD]
        simp [hi]
      rw [hd, firstNonempty]
      cases hn : (t.chainAt i).nodes with
      | nil =>
          have hz : (t.chainAt i).numElements = 0 := by simp [LinkedList.numElements, hn]
          have hp : (t.chainAt i).payloads = [] := by simp [LinkedList.payloads, hn]
          simp only [hz, ne_eq, not_true_eq_false, if_false, List.flatMap_cons, hp, List.nil_append]
          have h := ih (i + 1) (by omega)
          split at h
          · exact h
          · obtain ⟨n, post, hc, hle, he⟩ := h
            exact ⟨n, post, hc, by omega, he⟩
      | cons n post =>
          have hz : (t.chainAt i).numElements ≠ 0 := by simp [LinkedList.numElements, hn]
          simp only [hz, ne_eq, not_false_eq_true, if_true]
          exact ⟨n, post, hn, Nat.le_refl i, by simp [LinkedList.payloads, hn]⟩

theorem numElements_pos {t : HashTable V} {kv : HTKeyValue V} (h : kv ∈ t.pairs) :
    0 < t.numElements := by
  rw [← length_pairs]
  exact List.length_pos_of_mem h

theorem Points.subset {t : HashTable V} {it : HTIterator} {rest : List (HTKeyValue V)}
    (h : Points t it rest) : ∀ kv ∈ rest, kv ∈ t.pairs := by
  cases h with
  | empty | finished => simp
  | «at» i pre post n hc =>
      have hi : i < t.buckets.length := by
        by_contra hi
        simp [chainAt, List.getD_eq_getElem?_getD, Nat.le_of_not_lt hi, LinkedList.allocate] at hc
      have hs : t.pairs = (t.buckets.take i).flatMap LinkedList.payloads ++
          ((t.chainAt i).payloads ++ (t.buckets.drop (i + 1)).flatMap LinkedList.payloads) := by
        conv_lhs => rw [pairs, split_at t.buckets i hi]
        simp [chainAt]
      intro kv hkv
      rw [hs, LinkedList.payloads, hc]
      simp only [List.map_append, List.map_cons, List.mem_append, List.mem_cons] at hkv ⊢
      tauto

theorem allocate_spec (t : HashTable V) : ∃ it, allocate t = .ok it ∧ Points t it t.pairs := by
  by_cases h : t.numElements = 0
  · have hp : t.pairs = [] := List.eq_nil_of_length_eq_zero (by rw [length_pairs, h])
    rw [hp]
    exact ⟨⟨INVALID_IDX, none⟩, by simp only [allocate, h, if_true], .empty _ h⟩
  · have hs := firstNonempty_spec t 0 _ rfl
    simp only [List.drop_zero] at hs
    split at hs
    · exact absurd (by rw [← length_pairs, pairs, hs]; rfl) h
    · next j hj =>
      obtain ⟨n, post, hc, _, he⟩ := hs
      refine ⟨⟨j, some ⟨some n.addr⟩⟩, ?_, ?_⟩
      · simp [allocate, h, hj, LLIterator.allocate, hc]
      · rw [pairs, he]
        exact .at j [] post n hc

section

variable {t : HashTable V} {it : HTIterator} {kv : HTKeyValue V} {rest : List (HTKeyValue V)}

theorem isValid_nil (h : Points t it []) : isValid t it = .ok false := by
  cases h with
  | empty i h => simp [isValid, h]
  | finished i => simp [isValid, LLIterator.isValid]

theorem next_nil (h : Points t it []) : next t it = .ok (it, false) := by
  simp [next, isValid_nil h]

theorem get_nil (h : Points t it []) : get t it = .ok none := by
  simp [get, isValid_nil h]

theorem isValid_cons (h : Points t it (kv :: rest)) : isValid t it = .ok true := by
  have hpos := numElements_pos (h.subset kv (by simp))
  cases h with
  | «at» i pre post n hc => simp [isValid, hpos, LLIterator.isValid]

theorem get_cons (h : Points t it (kv :: rest)) : get t it = .ok (some kv) := by
  have hv := isValid_cons h
  cases h with
  | «at» i pre post n hc => simp [get, hv, LLIterator.get_eq hc]

/-- Where HTIterator_Next leaves an iterator: further down the chain, at the
head of a later one, or past the end. -/
theorem next_at {i : Nat} {pre post : List (LLNode (HTKeyValue V))} {n : LLNode (HTKeyValue V)}
    (hv : isValid t ⟨i, some ⟨some n.addr⟩⟩ = .ok true) (hc : (t.chainAt i).nodes = pre ++ n :: post) :
    next t ⟨i, some ⟨some n.addr⟩⟩ = .ok (
      match post, firstNonempty (t.buckets.drop (i + 1)) (i + 1) with
      | m :: _, _ => (⟨i, some ⟨some m.addr⟩⟩, true)
      | [], none => (⟨t.numBuckets, some ⟨none⟩⟩, false)
      | [], some j => (⟨j, some (LLIterator.allocate (t.chainAt j))⟩, true)) := by
  simp only [next, hv, Run.ok_bind, Int.toNat_natCast, LLIterator.next_eq hc]
  cases post with
  | nil => cases hf : firstNonempty (t.buckets.drop (i + 1)) (i + 1) <;> simp
  | cons m post => simp

theorem next_cons (h : Points t it (kv :: rest)) :
    ∃ it', next t it = .ok (it', !rest.isEmpty) ∧ Points t it' rest := by
  have hv := isValid_cons h
  cases h with
  | «at» i pre post n hc =>
      rw [next_at hv hc]
      cases post with
      | cons m post =>
          refine ⟨⟨i, some ⟨some m.addr⟩⟩, rfl, ?_⟩
          exact .at i (pre ++ [n]) post m (by rw [hc]; simp)
      | nil =>
          have hs := firstNonempty_spec t (i + 1) _ rfl
          split at hs
          · next hf =>
            rw [hf, hs]
            exact ⟨_, rfl, .finished _⟩
          · next j hf =>
            obtain ⟨m, post, hj, _, he⟩ := hs
            rw [hf, he]
            refine ⟨⟨j, some ⟨some m.addr⟩⟩, by simp [LLIterator.allocate, hj], ?_⟩
            exact .at j [] post m hj

theorem chainAt_dropPair {key : UInt64} {c : LinkedList (HTKeyValue V)} (h) (j : Nat) :
    (t.dropPair key c h).chainAt j =
      if t.hashKeyToBucketNum key = j then c else t.chainAt j :=
  getD_set t.buckets _ j (t.bucket_lt key) c

/-- Removing through an iterator hands back the pair it was on and leaves it
on the first of the remaining pairs of the smaller table. -/
theorem remove_cons [DecidableEq V] (h : Points t it (kv :: rest)) :
    ∃ t' it', remove t it = .ok (t', it', some kv) ∧ Points t' it' rest ∧
      Removed t kv.key t' ∧ t'.numBuckets = t.numBuckets := by
  have hg := get_cons h
  have hv := isValid_cons h
  have hmem := mem_pairs.mp (h.subset kv (by simp))
  obtain ⟨t', hr, hrem, hbuckets⟩ := HashTable.remove_spec t kv.key
  rw [hmem] at hr
  cases h with
  | «at» i pre post n hc =>
      have hi : t.hashKeyToBucketNum n.payload.key = i :=
        t.placed i n.payload (by
          change n.payload ∈ (t.chainAt i).payloads
          simp [LinkedList.payloads, hc])
      have hchain : (t.chain n.payload.key).nodes = pre ++ n :: post := by rw [chain, hi, hc]
      obtain ⟨c, hsub, hr', hcn⟩ := remove_at hchain
      obtain rfl : t.dropPair n.payload.key c hsub = t' := by rw [hr'] at hr; cases hr; rfl
      have hat (j : Nat) := chainAt_dropPair (t := t) hsub j
      have hdrop (j : Nat) (hj : i < j) :
          (t.dropPair n.payload.key c hsub).buckets.drop j = t.buckets.drop j := by
        change (t.buckets.set _ c).drop j = _
        rw [hi, List.drop_set_of_lt hj]
      have hnext : ∃ it' more, next t ⟨i, some ⟨some n.addr⟩⟩ = .ok (it', more) ∧
          Points (t.dropPair n.payload.key c hsub) it' (post.map LLNode.payload ++
            (t.buckets.drop (i + 1)).flatMap LinkedList.payloads) := by
        rw [next_at hv hc]
        cases post with
        | cons m post =>
            have hp := Points.at (t := t.dropPair n.payload.key c hsub) i pre post m
              (by rw [hat, if_pos hi, hcn])
            rw [hdrop (i + 1) (Nat.lt_succ_self i)] at hp
            exact ⟨_, _, rfl, hp⟩
        | nil =>
            have hs := firstNonempty_spec t (i + 1) _ rfl
            split at hs
            · next hf =>
              rw [hf, hs]
              exact ⟨_, _, rfl, .finished _⟩
            · next j hf =>
              obtain ⟨m, post, hj, hij, he⟩ := hs
              have hp := Points.at (t := t.dropPair n.payload.key c hsub) j [] post m
                (by rw [hat, if_neg (by omega), hj]; rfl)
              rw [hdrop (j + 1) (by omega)] at hp
              rw [hf, he]
              exact ⟨_, _, rfl, by simpa [LLIterator.allocate, hj] using hp⟩
      obtain ⟨it', more, hn, hp⟩ := hnext
      exact ⟨_, it', by simp [remove, hg, hn, hr], hp, hrem, hbuckets⟩

end

end HTIterator

end SearchEngine
