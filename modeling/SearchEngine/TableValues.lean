import SearchEngine.TableGrowth
import SearchEngine.TableLedger
import Mathlib.Algebra.BigOperators.Group.List.Basic

/-! No operation of a table looks at its values: a function on the values
passes through each of them, and a sum over the values changes by those that
come and go. -/

namespace SearchEngine

attribute [ext] HashTable

variable {V W : Type}

def HTKeyValue.map (f : V → W) (kv : HTKeyValue V) : HTKeyValue W := ⟨kv.key, f kv.value⟩

def LLNode.map {α β : Type} (f : α → β) (n : LLNode α) : LLNode β := ⟨n.addr, f n.payload⟩

namespace LinkedList

variable {α β : Type}

def map (f : α → β) (l : LinkedList α) : LinkedList β where
  nodes := l.nodes.map (LLNode.map f)
  distinct := by
    rw [List.map_map]
    exact l.distinct

variable (f : α → β) (l : LinkedList α)

@[simp]
theorem payloads_map : (l.map f).payloads = l.payloads.map f := by
  simp [payloads, map, LLNode.map]

@[simp]
theorem numElements_map : (l.map f).numElements = l.numElements :=
  List.length_map _

@[simp]
theorem allocate_map : (allocate : LinkedList α).map f = allocate := rfl

theorem append_map (payload : α) : (l.append payload).map f = (l.map f).append (f payload) := by
  simp only [append, map, freshAddr, List.map_append, List.map_map, List.map_cons, List.map_nil, mk.injEq]
  rfl

theorem modify_map (a : Option Addr) {g : α → α} {k : β → β} (hg : ∀ x, f (g x) = k (f x)) :
    (l.modify a g).map f = (l.map f).modify a k := by
  simp only [modify, map, List.map_map, mk.injEq]
  congr 1
  funext n
  change LLNode.map f (if some n.addr = a then ⟨n.addr, g n.payload⟩ else n) =
    if some n.addr = a then ⟨n.addr, k (f n.payload)⟩ else LLNode.map f n
  by_cases ha : some n.addr = a
  · rw [if_pos ha, if_pos ha, ← hg]
    rfl
  · rw [if_neg ha, if_neg ha]

end LinkedList

namespace HashTable

theorem getD_map (f : V → W) (bs : List (LinkedList (HTKeyValue V))) (i : Nat) :
    (bs.map (LinkedList.map (HTKeyValue.map f))).getD i .allocate =
      (bs.getD i .allocate).map (HTKeyValue.map f) := by
  rw [List.getD_eq_getElem?_getD, List.getD_eq_getElem?_getD, List.getElem?_map]
  cases bs[i]? with
  | none => rfl
  | some c => rfl

def map (f : V → W) (t : HashTable V) : HashTable W where
  numBuckets := t.numBuckets
  numElements := t.numElements
  buckets := t.buckets.map (LinkedList.map (HTKeyValue.map f))
  pos := t.pos
  size := by rw [List.length_map, t.size]
  placed := by
    intro i kv hkv
    rw [getD_map, LinkedList.payloads_map] at hkv
    obtain ⟨kv', hkv', rfl⟩ := List.mem_map.mp hkv
    exact t.placed i kv' hkv'
  unique := by
    intro i
    rw [getD_map, LinkedList.payloads_map, List.map_map]
    exact t.unique i
  count := by
    rw [List.map_map, t.count]
    congr 1
    apply List.map_congr_left
    intro c _
    exact (c.numElements_map _).symm

variable (f : V → W) (t : HashTable V)

theorem chain_map (key : UInt64) : (t.map f).chain key = (t.chain key).map (HTKeyValue.map f) :=
  getD_map f t.buckets _

@[simp]
theorem pairs_map : (t.map f).pairs = t.pairs.map (HTKeyValue.map f) := by
  simp only [pairs, map, List.flatMap_map, List.map_flatMap, LinkedList.payloads_map]

@[simp]
theorem lookup_map (key : UInt64) : (t.map f).lookup key = (t.lookup key).map f := by
  rw [lookup, chain_map, LinkedList.payloads_map, List.find?_map, lookup, Option.map_map, Option.map_map]
  rfl

theorem insertFindHelper_map (key : UInt64) : (t.map f).insertFindHelper key = t.insertFindHelper key := by
  rw [insertFindHelper, chain_map, insertFindHelper]
  simp only [LinkedList.map, List.find?_map, Option.map_map]
  rfl

theorem allocate_map (n : Int) : (map f <$> allocate n : Run (HashTable W)) = allocate n := by
  unfold allocate
  split
  · apply congrArg Except.ok
    ext1
    · rfl
    · rfl
    · simp [map]
  · rfl

theorem addPair_map (kv : HTKeyValue V) (h) (h') :
    (t.addPair kv h).map f = (t.map f).addPair (kv.map f) h' := by
  ext1
  · rfl
  · rfl
  · change (t.buckets.set _ _).map _ = (t.buckets.map _).set _ _
    rw [List.map_set, LinkedList.append_map, chain_map]
    rfl

theorem storeValue_map (key : UInt64) (li : LLIterator) (value : V) :
    (t.storeValue key li value).map f = (t.map f).storeValue key li (f value) := by
  ext1
  · rfl
  · rfl
  · change (t.buckets.set _ _).map _ = (t.buckets.map _).set _ _
    have hset (c : LinkedList (HTKeyValue V)) : (c.modify li.node fun kv => ⟨kv.key, value⟩).map (HTKeyValue.map f) =
        (c.map (HTKeyValue.map f)).modify li.node fun kv => ⟨kv.key, f value⟩ :=
      c.modify_map _ _ fun _ => rfl
    rw [List.map_set, hset, ← chain_map]
    rfl

theorem writeValue_map (key : UInt64) (value : V) :
    (t.writeValue key value).map f = (t.map f).writeValue key (f value) := by
  unfold writeValue
  rw [insertFindHelper_map]
  cases t.insertFindHelper key with
  | none => rfl
  | some li => exact storeValue_map f t key li value

/-- The result of an insertion, with a function on the values. -/
def mapInserted (f : V → W) (r : HashTable V × Option (HTKeyValue V)) : HashTable W × Option (HTKeyValue W) :=
  (r.1.map f, r.2.map (HTKeyValue.map f))

theorem get_map (key : UInt64) (li : LLIterator) :
    LLIterator.get ((t.map f).chain key) li = HTKeyValue.map f <$> LLIterator.get (t.chain key) li := by
  rw [chain_map]
  obtain ⟨node⟩ := li
  cases node with
  | none => rfl
  | some a =>
      have hdrop : ((t.chain key).map (HTKeyValue.map f)).nodes.dropWhile (fun n => n.addr ≠ a) =
          ((t.chain key).nodes.dropWhile fun n => n.addr ≠ a).map (LLNode.map (HTKeyValue.map f)) :=
        List.dropWhile_map ..
      simp only [LLIterator.get, LLIterator.deref, hdrop]
      cases (t.chain key).nodes.dropWhile fun n => n.addr ≠ a with
      | nil => rfl
      | cons n rest => rfl

theorem insertChain_map (kv : HTKeyValue V) :
    (t.map f).insertChain (kv.map f) = mapInserted f <$> t.insertChain kv := by
  have hhelper : (t.map f).insertFindHelper (kv.map f).key = t.insertFindHelper kv.key :=
    insertFindHelper_map f t kv.key
  unfold insertChain
  split
  · next hnone =>
    split
    · next hnone' =>
      exact congrArg (fun t => Except.ok (t, none))
        (addPair_map f t kv (insertFindHelper_none hnone') (insertFindHelper_none hnone)).symm
    · next li hsome =>
      rw [hhelper, hsome] at hnone
      cases hnone
  · next li hsome =>
    split
    · next hnone =>
      rw [hhelper, hnone] at hsome
      cases hsome
    · next li' hsome' =>
      obtain rfl : li' = li := by
        rw [hhelper, hsome'] at hsome
        exact Option.some.inj hsome
      have hget := get_map f t kv.key li'
      change LLIterator.get ((t.map f).chain kv.key) li' >>= _ = _
      rw [hget]
      cases LLIterator.get (t.chain kv.key) li' with
      | error e => rfl
      | ok old =>
          have hstore := storeValue_map f t kv.key li' kv.value
          exact congrArg (fun t => Except.ok (t, some (old.map f))) hstore.symm

open HTIterator in
theorem copyInto_eq {ht : HashTable V} (insertInto : HashTable V → HTKeyValue V → Run (HashTable V))
    (rest : List (HTKeyValue V)) (fuel : Nat) (hfuel : rest.length < fuel) {it : HTIterator} (hit : Points ht it rest)
    (newht : HashTable V) : copyInto ht insertInto fuel it newht = rest.foldlM insertInto newht := by
  induction rest generalizing fuel it newht with
  | nil =>
      obtain ⟨fuel, rfl⟩ := Nat.exists_eq_succ_of_ne_zero (Nat.ne_of_gt hfuel)
      simp [copyInto, isValid_nil hit]
  | cons kv rest ih =>
      obtain ⟨fuel, rfl⟩ := Nat.exists_eq_succ_of_ne_zero (Nat.ne_of_gt (Nat.zero_lt_of_lt hfuel))
      obtain ⟨it', hnext, hit'⟩ := next_cons hit
      simp only [copyInto, isValid_cons hit, Run.ok_bind, if_true, get_cons hit, List.foldlM_cons, hnext]
      congr 1
      funext newht'
      exact ih fuel (by simpa using hfuel) hit' newht'

theorem foldlM_map {insertV : HashTable V → HTKeyValue V → Run (HashTable V)}
    {insertW : HashTable W → HTKeyValue W → Run (HashTable W)}
    (h : ∀ t kv, insertW (t.map f) (kv.map f) = map f <$> insertV t kv) (kvs : List (HTKeyValue V)) :
    (kvs.map (HTKeyValue.map f)).foldlM insertW (t.map f) = map f <$> kvs.foldlM insertV t := by
  induction kvs generalizing t with
  | nil => rfl
  | cons kv kvs ih =>
      rw [List.map_cons, List.foldlM_cons, List.foldlM_cons, h]
      cases insertV t kv with
      | error e => rfl
      | ok t' => exact ih t'

theorem maybeResize_map (depth : Nat) : maybeResize depth (t.map f) = map f <$> maybeResize depth t := by
  induction depth generalizing t with
  | zero => rfl
  | succ depth ih =>
      have hstep (t' : HashTable V) (kv : HTKeyValue V) :
          insertWithin depth (t'.map f) (kv.map f) = map f <$> insertWithin depth t' kv := by
        unfold insertWithin
        rw [ih]
        cases maybeResize depth t' with
        | error e => rfl
        | ok t'' =>
            change (t''.map f).insertChain (kv.map f) >>= _ = map f <$> (t''.insertChain kv >>= _)
            rw [insertChain_map]
            cases t''.insertChain kv with
            | error e => rfl
            | ok r => rfl
      have hlimit : intMul 3 (t.map f).numBuckets = intMul 3 t.numBuckets := rfl
      have hmore : intMul (t.map f).numBuckets 9 = intMul t.numBuckets 9 := rfl
      unfold maybeResize
      rw [hlimit, hmore]
      cases intMul 3 t.numBuckets with
      | error e => rfl
      | ok limit =>
          simp only [Run.ok_bind]
          by_cases hfew : t.numElements < limit
          · have hfew' : (t.map f).numElements < limit := hfew
            rw [if_pos hfew, if_pos hfew']
            rfl
          · have hfew' : ¬(t.map f).numElements < limit := hfew
            rw [if_neg hfew, if_neg hfew']
            cases intMul t.numBuckets 9 with
            | error e => rfl
            | ok numBuckets =>
                simp only [Run.ok_bind]
                rw [← allocate_map f]
                cases allocate (V := V) numBuckets with
                | error e => rfl
                | ok newht =>
                    obtain ⟨it, halloc, hit⟩ := HTIterator.allocate_spec t
                    obtain ⟨it', halloc', hit'⟩ := HTIterator.allocate_spec (t.map f)
                    have hlen : t.pairs.length < t.numElements + 1 := by
                      rw [length_pairs]
                      omega
                    have hlen' : (t.map f).pairs.length < (t.map f).numElements + 1 := by
                      rw [length_pairs]
                      omega
                    change (HTIterator.allocate (t.map f) >>= fun it => copyInto _ _ _ it (newht.map f)) =
                      map f <$> (HTIterator.allocate t >>= fun it => copyInto _ _ _ it newht)
                    rw [halloc, halloc', Run.ok_bind, Run.ok_bind, copyInto_eq _ _ _ hlen hit,
                      copyInto_eq _ _ _ hlen' hit', pairs_map]
                    exact foldlM_map f newht hstep t.pairs

theorem insert_map (kv : HTKeyValue V) : (t.map f).insert (kv.map f) = mapInserted f <$> t.insert kv := by
  unfold insert
  rw [maybeResize_map]
  cases maybeResize 2 t with
  | error e => rfl
  | ok t' => exact insertChain_map f t' kv

section Total

variable {M : Type} [AddCommMonoid M] (g : V → M) {t : HashTable V} {t' : HashTable V} {kv : HTKeyValue V}
  {key : UInt64} {value : V}

/-- What the values of a table come to. -/
def total (t : HashTable V) : M := (t.pairs.map fun kv => g kv.value).sum

theorem allocate_empty {n : Int} (h : allocate n = .ok t) : t.numElements = 0 ∧ t.Loaded := by
  refine ⟨?_, allocate_loaded h⟩
  by_cases hn : 0 < n
  · obtain ⟨t₀, halloc, hzero, _⟩ := allocate_spec (V := V) hn
    obtain rfl : t₀ = t := Except.ok.inj (halloc.symm.trans h)
    exact hzero
  · have hfail : (allocate n : Run (HashTable V)) = .error .verify333 := by simp [allocate, hn]
    rw [hfail] at h
    cases h

theorem total_of_empty (h : t.numElements = 0) : t.total g = 0 := by
  have hnil : t.pairs = [] := List.eq_nil_of_length_eq_zero (t.length_pairs.trans h)
  rw [total, hnil]
  rfl

theorem total_of_lookup (h : t.lookup key = some value) : ∃ others, t.total g = g value + others := by
  have hmem : (⟨key, value⟩ : HTKeyValue V) ∈ t.pairs := mem_pairs.mpr h
  obtain ⟨before, after, hpairs⟩ := List.append_of_mem hmem
  refine ⟨(before.map fun kv => g kv.value).sum + (after.map fun kv => g kv.value).sum, ?_⟩
  rw [total, hpairs, List.map_append, List.sum_append, List.map_cons, List.sum_cons, add_left_comm]

theorem Inserted.total_eq (h : Inserted t kv t') :
    ((t.lookup kv.key).map g).getD 0 + t'.total g = g kv.value + t.total g := by
  have hsum := (h.perm.map g).sum_eq
  rw [List.map_append, List.sum_append, List.map_cons, List.sum_cons, List.map_map, List.map_map] at hsum
  cases hl : t.lookup kv.key with
  | none =>
      rw [hl, Option.toList_none, List.map_nil, List.sum_nil] at hsum
      exact hsum
  | some value =>
      rw [hl, Option.toList_some, List.map_singleton, List.sum_singleton] at hsum
      exact hsum

theorem Removed.total_eq (h : Removed t key t') (hl : t.lookup key = some value) :
    t.total g = g value + t'.total g := by
  rw [total, ((h.perm hl).map _).sum_eq, List.map_cons, List.sum_cons]
  rfl

theorem insert_new_total {old : Option (HTKeyValue V)} (hload : t.Loaded) (hnew : t.lookup kv.key = none)
    (h : t.insert kv = .ok (t', old)) :
    Inserted t kv t' ∧ t'.Loaded ∧ t'.total g = g kv.value + t.total g := by
  obtain ⟨t₁, hins, hspec, _, hload'⟩ := insert_spec hload (fits_of_insert h) kv
  obtain rfl : t₁ = t' := by
    rw [hins] at h
    exact congrArg Prod.fst (Except.ok.inj h)
  have htotal := hspec.total_eq g
  rw [hnew, Option.map_none, Option.getD_none, zero_add] at htotal
  exact ⟨hspec, hload', htotal⟩

theorem writeValue_loaded (hl : t.lookup key = some value) (value' : V) (hload : t.Loaded) :
    (t.writeValue key value').Loaded := by
  obtain ⟨_, hcount, hbuckets⟩ := writeValue_spec (Option.isSome_of_eq_some hl) value'
  unfold Loaded
  rw [hcount, hbuckets]
  exact hload

theorem writeValue_total (hl : t.lookup key = some value) (value' : V) :
    g value + (t.writeValue key value').total g = g value' + t.total g := by
  have hsome : (t.lookup key).isSome := Option.isSome_of_eq_some hl
  obtain ⟨hlook, hcount, _⟩ := writeValue_spec hsome value'
  have hins : Inserted t ⟨key, value'⟩ (t.writeValue key value') := by
    refine ⟨hlook, ?_⟩
    rw [hcount, if_pos hsome]
  have htotal := hins.total_eq g
  rwa [hl, Option.map_some, Option.getD_some] at htotal

end Total

end HashTable

end SearchEngine
