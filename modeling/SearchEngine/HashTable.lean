import SearchEngine.LinkedList
import Mathlib.Data.List.Perm.Basic
import Mathlib.Data.List.Nodup
import Mathlib.Algebra.BigOperators.Group.List.Basic

namespace SearchEngine

/-- The reduction C makes when a size_t is passed or assigned to an int. -/
def toInt (n : Nat) : Int := (n : Int).bmod (2 ^ 32)

theorem toInt_of_lt {n : Nat} (h : n < 2 ^ 31) : toInt n = n := by
  apply Int.bmod_eq_of_le_mul_two <;> omega

def FNV1_64_INIT : UInt64 := 0xcbf29ce484222325

def FNV_64_PRIME : UInt64 := 0x100000001b3

@[irreducible]
def fnvHash64 (buffer : List UInt8) (len : Int) : UInt64 :=
  (buffer.take len.toNat).foldl (fun hval b => (hval ^^^ b.toUInt64) * FNV_64_PRIME) FNV1_64_INIT

def hashString (s : List UInt8) : UInt64 := fnvHash64 s (toInt s.length)

structure HTKeyValue (V : Type) where
  key : UInt64
  value : V

/-- A chained hash table with its representation invariant: a pair is in the
bucket of its key, no chain has a key twice, and the element count is exact. -/
structure HashTable (V : Type) where
  numBuckets : Nat
  numElements : Nat
  buckets : List (LinkedList (HTKeyValue V))
  pos : 0 < numBuckets
  size : buckets.length = numBuckets
  placed : ∀ i, ∀ kv ∈ (buckets.getD i .allocate).payloads, kv.key.toNat % numBuckets = i
  unique : ∀ i, ((buckets.getD i .allocate).payloads.map HTKeyValue.key).Nodup
  count : numElements = (buckets.map LinkedList.numElements).sum

namespace HashTable

variable {V : Type}

def hashKeyToBucketNum (t : HashTable V) (key : UInt64) : Nat := key.toNat % t.numBuckets

def chainAt (t : HashTable V) (i : Nat) : LinkedList (HTKeyValue V) := t.buckets.getD i .allocate

def chain (t : HashTable V) (key : UInt64) : LinkedList (HTKeyValue V) :=
  t.chainAt (t.hashKeyToBucketNum key)

theorem bucket_lt (t : HashTable V) (key : UInt64) : t.hashKeyToBucketNum key < t.buckets.length := by
  rw [t.size]
  exact Nat.mod_lt _ t.pos

theorem getD_replicate_allocate (n i : Nat) :
    (List.replicate n (LinkedList.allocate : LinkedList (HTKeyValue V))).getD i .allocate = .allocate := by
  by_cases h : i < n <;> simp [List.getD_eq_getElem?_getD, h]

def allocate (numBuckets : Int) : Run (HashTable V) :=
  if h : 0 < numBuckets then
    .ok {
      numBuckets := numBuckets.toNat
      numElements := 0
      buckets := List.replicate numBuckets.toNat .allocate
      pos := by omega
      size := List.length_replicate
      placed := by
        intro i kv hkv
        rw [getD_replicate_allocate] at hkv
        simp at hkv
      unique := by
        intro i
        rw [getD_replicate_allocate]
        simp
      count := by simp [LinkedList.numElements, LinkedList.allocate] }
  else .error .verify333

theorem getD_set (bs : List (LinkedList (HTKeyValue V))) (i j : Nat) (hi : i < bs.length)
    (c : LinkedList (HTKeyValue V)) :
    (bs.set i c).getD j .allocate = if i = j then c else bs.getD j .allocate := by
  by_cases h : i = j
  · subst j
    simp [List.getD_eq_getElem?_getD, hi]
  · simp [List.getD_eq_getElem?_getD, h]

theorem split_at (bs : List (LinkedList (HTKeyValue V))) (i : Nat) (hi : i < bs.length) :
    bs = bs.take i ++ bs.getD i .allocate :: bs.drop (i + 1) := by
  have h : bs.getD i .allocate = bs[i] := by simp [List.getD_eq_getElem?_getD, hi]
  rw [h, List.cons_getElem_drop_succ, List.take_append_drop]

def setChain (t : HashTable V) (i : Nat) (c : LinkedList (HTKeyValue V)) (numElements : Nat)
    (hi : i < t.buckets.length) (hplaced : ∀ kv ∈ c.payloads, kv.key.toNat % t.numBuckets = i)
    (hunique : (c.payloads.map HTKeyValue.key).Nodup)
    (hcount : numElements + (t.chainAt i).numElements = t.numElements + c.numElements) :
    HashTable V where
  numBuckets := t.numBuckets
  numElements := numElements
  buckets := t.buckets.set i c
  pos := t.pos
  size := by rw [List.length_set, t.size]
  placed := by
    intro j
    rw [getD_set _ _ _ hi]
    split
    · next h => exact h ▸ hplaced
    · exact t.placed j
  unique := by
    intro j
    rw [getD_set _ _ _ hi]
    split
    · exact hunique
    · exact t.unique j
  count := by
    have hs := congrArg (fun bs => (bs.map LinkedList.numElements).sum) (split_at t.buckets i hi)
    simp only [List.map_append, List.map_cons, List.sum_append, List.sum_cons] at hs
    rw [List.set_eq_take_append_cons_drop, if_pos hi]
    simp only [List.map_append, List.map_cons, List.sum_append, List.sum_cons]
    have hc := t.count
    unfold chainAt at hcount
    omega

def addPair (t : HashTable V) (kv : HTKeyValue V)
    (h : kv.key ∉ (t.chain kv.key).payloads.map HTKeyValue.key) : HashTable V :=
  t.setChain (t.hashKeyToBucketNum kv.key) ((t.chain kv.key).append kv) (t.numElements + 1)
    (t.bucket_lt kv.key)
    (by
      intro kv' hkv'
      rw [LinkedList.payloads_append, List.mem_append, List.mem_singleton] at hkv'
      rcases hkv' with hkv' | rfl
      · exact t.placed _ kv' hkv'
      · rfl)
    (by
      rw [LinkedList.payloads_append, List.map_append, List.nodup_append]
      refine ⟨t.unique _, by simp, ?_⟩
      intro a ha b hb
      have hb : b = kv.key := by simpa using hb
      rintro rfl
      exact h (hb ▸ ha))
    (by rw [LinkedList.numElements_append, chain]; omega)

theorem keys_modify (c : LinkedList (HTKeyValue V)) (a : Option Addr) (value : V) :
    (c.modify a fun kv => ⟨kv.key, value⟩).payloads.map HTKeyValue.key =
      c.payloads.map HTKeyValue.key :=
  c.map_payloads_modify a _ _ fun _ => rfl

def storeValue (t : HashTable V) (key : UInt64) (li : LLIterator) (value : V) : HashTable V :=
  t.setChain (t.hashKeyToBucketNum key) ((t.chain key).modify li.node fun kv => ⟨kv.key, value⟩)
    t.numElements (t.bucket_lt key)
    (by
      intro kv hkv
      have hk := List.mem_map_of_mem (f := HTKeyValue.key) hkv
      rw [keys_modify] at hk
      obtain ⟨kv', hkv', he⟩ := List.mem_map.mp hk
      exact he ▸ t.placed _ kv' hkv')
    (by
      rw [keys_modify]
      exact t.unique _)
    (by rw [LinkedList.numElements_modify, chain])

def dropPair (t : HashTable V) (key : UInt64) (c : LinkedList (HTKeyValue V))
    (h : c.nodes.Sublist (t.chain key).nodes ∧ c.numElements + 1 = (t.chain key).numElements) :
    HashTable V :=
  t.setChain (t.hashKeyToBucketNum key) c (t.numElements - 1) (t.bucket_lt key)
    (fun kv hkv => t.placed _ kv ((h.1.map _).mem hkv))
    ((t.unique _).sublist ((h.1.map _).map _))
    (by
      have hs := congrArg (fun bs => (bs.map LinkedList.numElements).sum)
        (split_at t.buckets _ (t.bucket_lt key))
      have hc := t.count
      simp only [List.map_append, List.map_cons, List.sum_append, List.sum_cons] at hs
      have hn := h.2
      unfold chain chainAt at hn
      unfold chainAt
      omega)

def insertFindHelper (t : HashTable V) (key : UInt64) : Option LLIterator :=
  ((t.chain key).nodes.find? fun n => n.payload.key = key).map fun n => ⟨some n.addr⟩

theorem insertFindHelper_none {t : HashTable V} {key : UInt64} (h : t.insertFindHelper key = none) :
    key ∉ (t.chain key).payloads.map HTKeyValue.key := by
  simp only [insertFindHelper, Option.map_eq_none_iff, List.find?_eq_none, decide_eq_true_eq] at h
  simpa [LinkedList.payloads] using h

/-- The part of HashTable_Insert after MaybeResize, with the pair that comes
back through oldkeyvalue when the key was present. -/
def insertChain (t : HashTable V) (newkeyvalue : HTKeyValue V) :
    Run (HashTable V × Option (HTKeyValue V)) :=
  match h : t.insertFindHelper newkeyvalue.key with
  | none => .ok (t.addPair newkeyvalue (insertFindHelper_none h), none)
  | some li => do
      let old ← LLIterator.get (t.chain newkeyvalue.key) li
      return (t.storeValue newkeyvalue.key li newkeyvalue.value, some old)

def find (t : HashTable V) (key : UInt64) : Run (Option (HTKeyValue V)) :=
  match t.insertFindHelper key with
  | none => .ok none
  | some li => do
      let kv ← LLIterator.get (t.chain key) li
      return some kv

def remove (t : HashTable V) (key : UInt64) : Run (HashTable V × Option (HTKeyValue V)) :=
  match t.insertFindHelper key with
  | none => .ok (t, none)
  | some li => do
      let kv ← LLIterator.get (t.chain key) li
      match h : LLIterator.remove (t.chain key) li with
      | .error e => .error e
      | .ok (c, _, _) => .ok (t.dropPair key c (LLIterator.remove_ok h), some kv)

/-- A write through the value pointer that HashTable_Find handed out. -/
def writeValue (t : HashTable V) (key : UInt64) (value : V) : HashTable V :=
  match t.insertFindHelper key with
  | none => t
  | some li => t.storeValue key li value

def lookup (t : HashTable V) (key : UInt64) : Option V :=
  ((t.chain key).payloads.find? fun kv => kv.key = key).map HTKeyValue.value

theorem eq_of_key_eq {kvs : List (HTKeyValue V)} (hu : (kvs.map HTKeyValue.key).Nodup)
    {a b : HTKeyValue V} (ha : a ∈ kvs) (hb : b ∈ kvs) (h : a.key = b.key) : a = b :=
  List.inj_on_of_nodup_map hu ha hb h

theorem lookup_eq_some {t : HashTable V} {key : UInt64} {value : V} :
    t.lookup key = some value ↔ ⟨key, value⟩ ∈ (t.chain key).payloads := by
  simp only [lookup, Option.map_eq_some_iff]
  constructor
  · rintro ⟨kv, hkv, rfl⟩
    have hk : kv.key = key := by simpa using List.find?_some hkv
    subst hk
    exact List.mem_of_find?_eq_some hkv
  · intro h
    cases hf : (t.chain key).payloads.find? fun kv => kv.key = key with
    | none => simpa using List.find?_eq_none.mp hf _ h
    | some kv =>
        have hk : kv.key = key := by simpa using List.find?_some hf
        exact ⟨kv, rfl, congrArg HTKeyValue.value
          (eq_of_key_eq (t.unique _) (List.mem_of_find?_eq_some hf) h hk)⟩

theorem lookup_eq_none {t : HashTable V} {key : UInt64} :
    t.lookup key = none ↔ key ∉ (t.chain key).payloads.map HTKeyValue.key := by
  simp [lookup]

theorem insertFindHelper_some {t : HashTable V} {key : UInt64} {li : LLIterator}
    (h : t.insertFindHelper key = some li) :
    ∃ pre n post, (t.chain key).nodes = pre ++ n :: post ∧ n.payload.key = key ∧
      li = ⟨some n.addr⟩ ∧ t.lookup key = some n.payload.value := by
  simp only [insertFindHelper, Option.map_eq_some_iff] at h
  obtain ⟨n, hn, rfl⟩ := h
  have hk : n.payload.key = key := by simpa using List.find?_some hn
  subst hk
  obtain ⟨pre, post, hc⟩ := List.append_of_mem (List.mem_of_find?_eq_some hn)
  refine ⟨pre, n, post, hc, rfl, rfl, lookup_eq_some.mpr ?_⟩
  exact List.mem_map_of_mem (f := LLNode.payload) (List.mem_of_find?_eq_some hn)

@[simp]
theorem find_eq (t : HashTable V) (key : UInt64) :
    t.find key = .ok ((t.lookup key).map (HTKeyValue.mk key)) := by
  cases h : t.insertFindHelper key with
  | none => simp [find, h, lookup_eq_none.mpr (insertFindHelper_none h)]
  | some li =>
      obtain ⟨pre, n, post, hc, rfl, rfl, hl⟩ := insertFindHelper_some h
      simp [find, h, LLIterator.get_eq hc, hl]

theorem chain_setChain (t : HashTable V) (i : Nat) (c : LinkedList (HTKeyValue V)) (m : Nat)
    (hi hp hu hn) (key : UInt64) :
    (t.setChain i c m hi hp hu hn).chain key =
      if i = t.hashKeyToBucketNum key then c else t.chain key :=
  getD_set t.buckets i _ hi c

/-- Only the bucket of the changed key decides lookups after a change. -/
theorem lookup_setChain {t : HashTable V} {key₀ : UInt64} {c : LinkedList (HTKeyValue V)} {m : Nat}
    {hi hp hu hn} {key : UInt64} {value : V} :
    (t.setChain (t.hashKeyToBucketNum key₀) c m hi hp hu hn).lookup key = some value ↔
      if t.hashKeyToBucketNum key₀ = t.hashKeyToBucketNum key then ⟨key, value⟩ ∈ c.payloads
      else t.lookup key = some value := by
  rw [lookup_eq_some, chain_setChain]
  split
  · rfl
  · rw [lookup_eq_some]

theorem lookup_addPair (t : HashTable V) (kv : HTKeyValue V) (h) (key : UInt64) :
    (t.addPair kv h).lookup key = if key = kv.key then some kv.value else t.lookup key := by
  refine Option.ext fun value => ?_
  rw [addPair, lookup_setChain, LinkedList.payloads_append, List.mem_append, List.mem_singleton]
  by_cases hk : key = kv.key
  · subst hk
    have hnot : (⟨kv.key, value⟩ : HTKeyValue V) ∉ (t.chain kv.key).payloads := fun hm =>
      h (List.mem_map.mpr ⟨_, hm, rfl⟩)
    obtain ⟨k, v⟩ := kv
    simp [hnot, eq_comm]
  · rw [if_neg hk]
    split
    · next hb =>
      have hc : t.chain kv.key = t.chain key := by rw [chain, hb, chain]
      have hne : (⟨key, value⟩ : HTKeyValue V) ≠ kv := fun he => hk (congrArg HTKeyValue.key he)
      rw [lookup_eq_some, hc]
      simp [hne]
    · rfl

theorem lookup_storeValue {t : HashTable V} {pre post : List (LLNode (HTKeyValue V))}
    {n : LLNode (HTKeyValue V)} (hc : (t.chain n.payload.key).nodes = pre ++ n :: post) (value : V)
    (key : UInt64) :
    (t.storeValue n.payload.key ⟨some n.addr⟩ value).lookup key =
      if key = n.payload.key then some value else t.lookup key := by
  refine Option.ext fun v => ?_
  have hkeys := t.unique (t.hashKeyToBucketNum n.payload.key)
  change ((t.chain n.payload.key).payloads.map HTKeyValue.key).Nodup at hkeys
  rw [storeValue, lookup_setChain, LinkedList.payloads, LLIterator.modify_nodes hc]
  simp only [LinkedList.payloads, hc, List.map_append, List.map_cons, List.nodup_append,
    List.nodup_cons] at hkeys
  by_cases hk : key = n.payload.key
  · subst hk
    have hnot (ns : List (LLNode (HTKeyValue V)))
        (hns : n.payload.key ∉ (ns.map LLNode.payload).map HTKeyValue.key) :
        (⟨n.payload.key, v⟩ : HTKeyValue V) ∉ ns.map LLNode.payload := fun hm =>
      hns (List.mem_map.mpr ⟨_, hm, rfl⟩)
    have hpre := hnot pre fun hm => hkeys.2.2 _ hm _ (by simp) rfl
    have hpost := hnot post hkeys.2.1.1
    rw [if_pos rfl, if_pos rfl, List.map_append, List.map_cons, List.mem_append, List.mem_cons]
    simp [hpre, hpost, eq_comm]
  · rw [if_neg hk]
    split
    · next hb =>
      have hcc : t.chain n.payload.key = t.chain key := by rw [chain, hb, chain]
      have hne : (⟨key, v⟩ : HTKeyValue V) ≠ n.payload := fun he => hk (congrArg HTKeyValue.key he)
      rw [lookup_eq_some, ← hcc, LinkedList.payloads, hc]
      simp [hk, hne]
    · rfl

theorem lookup_dropPair {t : HashTable V} {pre post : List (LLNode (HTKeyValue V))}
    {n : LLNode (HTKeyValue V)} (hc : (t.chain n.payload.key).nodes = pre ++ n :: post)
    {c : LinkedList (HTKeyValue V)} (hnodes : c.nodes = pre ++ post) (h) (key : UInt64) :
    (t.dropPair n.payload.key c h).lookup key = if key = n.payload.key then none else t.lookup key := by
  refine Option.ext fun v => ?_
  have hkeys := t.unique (t.hashKeyToBucketNum n.payload.key)
  change ((t.chain n.payload.key).payloads.map HTKeyValue.key).Nodup at hkeys
  rw [dropPair, lookup_setChain, LinkedList.payloads, hnodes]
  simp only [LinkedList.payloads, hc, List.map_append, List.map_cons, List.nodup_append,
    List.nodup_cons] at hkeys
  by_cases hk : key = n.payload.key
  · subst hk
    have hnot (ns : List (LLNode (HTKeyValue V)))
        (hns : n.payload.key ∉ (ns.map LLNode.payload).map HTKeyValue.key) :
        (⟨n.payload.key, v⟩ : HTKeyValue V) ∉ ns.map LLNode.payload := fun hm =>
      hns (List.mem_map.mpr ⟨_, hm, rfl⟩)
    have hpre := hnot pre fun hm => hkeys.2.2 _ hm _ (by simp) rfl
    have hpost := hnot post hkeys.2.1.1
    rw [if_pos rfl, if_pos rfl, List.map_append, List.mem_append]
    simp [hpre, hpost]
  · rw [if_neg hk]
    split
    · next hb =>
      have hcc : t.chain n.payload.key = t.chain key := by rw [chain, hb, chain]
      have hne : (⟨key, v⟩ : HTKeyValue V) ≠ n.payload := fun he => hk (congrArg HTKeyValue.key he)
      rw [lookup_eq_some, ← hcc, LinkedList.payloads, hc]
      simp [hne]
    · rfl

def pairs (t : HashTable V) : List (HTKeyValue V) := t.buckets.flatMap LinkedList.payloads

theorem length_pairs (t : HashTable V) : t.pairs.length = t.numElements := by
  rw [pairs, List.length_flatMap, t.count]
  congr 2
  funext c
  exact c.length_payloads

theorem mem_pairs {t : HashTable V} {kv : HTKeyValue V} :
    kv ∈ t.pairs ↔ t.lookup kv.key = some kv.value := by
  rw [lookup_eq_some, pairs, List.mem_flatMap]
  constructor
  · rintro ⟨c, hc, hkv⟩
    obtain ⟨i, hi, rfl⟩ := List.getElem_of_mem hc
    have hg : t.buckets.getD i .allocate = t.buckets[i] := by
      simp [List.getD_eq_getElem?_getD, hi]
    have hp := t.placed i kv (hg ▸ hkv)
    rw [chain, hashKeyToBucketNum, hp, chainAt, hg]
    exact hkv
  · intro hkv
    have hb := t.bucket_lt kv.key
    refine ⟨t.chain kv.key, ?_, hkv⟩
    rw [chain, chainAt, List.getD_eq_getElem?_getD]
    simp [hb]

theorem find_pairs (t : HashTable V) (key : UInt64) :
    (t.pairs.find? fun kv => kv.key = key) = (t.lookup key).map (HTKeyValue.mk key) := by
  cases hl : t.lookup key with
  | none =>
      rw [Option.map_none, List.find?_eq_none]
      intro kv hkv hkey
      have hfound := mem_pairs.mp hkv
      rw [of_decide_eq_true hkey, hl] at hfound
      cases hfound
  | some value =>
      have hmem : ⟨key, value⟩ ∈ t.pairs := mem_pairs.mpr hl
      have hsome : (t.pairs.find? fun kv => kv.key = key).isSome := by
        rw [List.find?_isSome]
        exact ⟨_, hmem, decide_eq_true rfl⟩
      obtain ⟨kv, hkv⟩ := Option.isSome_iff_exists.mp hsome
      have hkey : kv.key = key := by simpa using List.find?_some hkv
      subst hkey
      have hfound := mem_pairs.mp (List.mem_of_find?_eq_some hkv)
      rw [hl] at hfound
      rw [hkv, Option.map_some, Option.some.inj hfound]

theorem nodup_keys (t : HashTable V) : (t.pairs.map HTKeyValue.key).Nodup := by
  rw [pairs, List.map_flatMap, List.nodup_flatMap]
  refine ⟨fun c hc => ?_, ?_⟩
  · obtain ⟨i, hi, rfl⟩ := List.getElem_of_mem hc
    simpa [List.getD_eq_getElem?_getD, hi] using t.unique i
  · rw [List.pairwise_iff_getElem]
    intro i j hi hj hij key hki hkj
    obtain ⟨a, ha, rfl⟩ := List.mem_map.mp hki
    obtain ⟨b, hb, he⟩ := List.mem_map.mp hkj
    have hpa := t.placed i a (by simpa [List.getD_eq_getElem?_getD, hi] using ha)
    have hpb := t.placed j b (by simpa [List.getD_eq_getElem?_getD, hj] using hb)
    rw [he] at hpb
    omega

/-- What an insertion does to the table's content, apart from any resize. -/
structure Inserted (t : HashTable V) (kv : HTKeyValue V) (t' : HashTable V) : Prop where
  lookup : ∀ key, t'.lookup key = if key = kv.key then some kv.value else t.lookup key
  count : t'.numElements = if (t.lookup kv.key).isSome then t.numElements else t.numElements + 1

structure Removed (t : HashTable V) (key₀ : UInt64) (t' : HashTable V) : Prop where
  lookup : ∀ key, t'.lookup key = if key = key₀ then none else t.lookup key
  count : t'.numElements = if (t.lookup key₀).isSome then t.numElements - 1 else t.numElements

theorem nodup_pairs (t : HashTable V) : t.pairs.Nodup := .of_map _ t.nodup_keys

/-- The pairs of a table are known, up to their order, from its lookups. -/
theorem pairs_perm {t : HashTable V} {kvs : List (HTKeyValue V)} (hnodup : (kvs.map HTKeyValue.key).Nodup)
    (hmem : ∀ kv, kv ∈ kvs ↔ t.lookup kv.key = some kv.value) : t.pairs.Perm kvs := by
  rw [List.perm_ext_iff_of_nodup t.nodup_pairs (.of_map _ hnodup)]
  intro kv
  rw [mem_pairs, hmem]

theorem Removed.perm {t t' : HashTable V} {key : UInt64} {value : V} (h : Removed t key t')
    (hl : t.lookup key = some value) : t.pairs.Perm (⟨key, value⟩ :: t'.pairs) := by
  refine pairs_perm ?_ fun kv => ?_
  · refine List.nodup_cons.mpr ⟨fun hm => ?_, t'.nodup_keys⟩
    obtain ⟨kv, hkv, he⟩ := List.mem_map.mp hm
    have hnone := mem_pairs.mp hkv
    rw [h.lookup, if_pos he] at hnone
    cases hnone
  · rw [List.mem_cons, mem_pairs, h.lookup]
    obtain ⟨k, v⟩ := kv
    by_cases hk : k = key
    · subst hk
      simp [hl, eq_comm]
    · simp [hk]

theorem Removed.perm_none {t t' : HashTable V} {key : UInt64} (h : Removed t key t') (hl : t.lookup key = none) :
    t.pairs.Perm t'.pairs := by
  refine pairs_perm t'.nodup_keys fun kv => ?_
  rw [mem_pairs, h.lookup]
  split
  · next he => rw [he, hl]
  · rfl

/-- The values of the table and the one handed back are the values there were
and the new one. -/
theorem Inserted.perm {t t' : HashTable V} {kv : HTKeyValue V} (h : Inserted t kv t') :
    ((t.lookup kv.key).toList ++ t'.pairs.map HTKeyValue.value).Perm (kv.value :: t.pairs.map HTKeyValue.value) := by
  have hothers : ∀ kv', kv' ∈ t.pairs.filter (fun kv' => kv'.key ≠ kv.key) ↔
      kv'.key ≠ kv.key ∧ t.lookup kv'.key = some kv'.value := by
    intro kv'
    rw [List.mem_filter, mem_pairs, decide_eq_true_iff, and_comm]
  have hnodup : ((t.pairs.filter fun kv' => kv'.key ≠ kv.key).map HTKeyValue.key).Nodup :=
    t.nodup_keys.sublist (List.filter_sublist.map _)
  have hnot : ∀ value, kv.key ∉ (t.pairs.filter fun kv' => kv'.key ≠ kv.key).map HTKeyValue.key ∧
      (⟨kv.key, value⟩ : HTKeyValue V) ∉ t.pairs.filter fun kv' => kv'.key ≠ kv.key := by
    intro value
    constructor
    · intro hm
      obtain ⟨kv', hkv', he⟩ := List.mem_map.mp hm
      exact ((hothers kv').mp hkv').1 he
    · intro hm
      exact ((hothers _).mp hm).1 rfl
  have hafter : t'.pairs.Perm (kv :: t.pairs.filter fun kv' => kv'.key ≠ kv.key) := by
    refine pairs_perm (List.nodup_cons.mpr ⟨(hnot kv.value).1, hnodup⟩) fun kv' => ?_
    rw [List.mem_cons, hothers, h.lookup]
    obtain ⟨k, v⟩ := kv'
    obtain ⟨k₀, v₀⟩ := kv
    by_cases hk : k = k₀
    · subst hk
      simp [eq_comm]
    · simp [hk]
  cases hl : t.lookup kv.key with
  | none =>
      have hbefore : t.pairs.Perm (t.pairs.filter fun kv' => kv'.key ≠ kv.key) := by
        refine pairs_perm hnodup fun kv' => ?_
        rw [hothers, and_iff_right_iff_imp]
        intro hsome he
        rw [he, hl] at hsome
        cases hsome
      exact (hafter.trans (hbefore.symm.cons kv)).map HTKeyValue.value
  | some value =>
      have hbefore : t.pairs.Perm (⟨kv.key, value⟩ :: t.pairs.filter fun kv' => kv'.key ≠ kv.key) := by
        refine pairs_perm (List.nodup_cons.mpr ⟨(hnot value).1, hnodup⟩) fun kv' => ?_
        rw [List.mem_cons, hothers]
        obtain ⟨k, v⟩ := kv'
        by_cases hk : k = kv.key
        · subst hk
          simp [hl, eq_comm]
        · simp [hk]
      have hb := hbefore.map HTKeyValue.value
      have ha := hafter.map HTKeyValue.value
      rw [List.map_cons] at ha hb
      exact ((ha.cons value).trans (List.Perm.swap _ _ _)).trans (hb.symm.cons kv.value)

theorem Removed.values_perm {t t' : HashTable V} {key : UInt64} (h : Removed t key t') :
    ((t.lookup key).toList ++ t'.pairs.map HTKeyValue.value).Perm (t.pairs.map HTKeyValue.value) := by
  cases hl : t.lookup key with
  | none => exact (h.perm_none hl).symm.map HTKeyValue.value
  | some value => exact (h.perm hl).symm.map HTKeyValue.value

theorem insertChain_spec (t : HashTable V) (kv : HTKeyValue V) :
    ∃ t', t.insertChain kv = .ok (t', (t.lookup kv.key).map (HTKeyValue.mk kv.key)) ∧
      Inserted t kv t' ∧ t'.numBuckets = t.numBuckets := by
  unfold insertChain
  split
  · next h =>
    have hl := lookup_eq_none.mpr (insertFindHelper_none h)
    exact ⟨_, by rw [hl]; rfl, ⟨lookup_addPair t kv _, by rw [hl]; rfl⟩, rfl⟩
  · next li h =>
    obtain ⟨pre, n, post, hc, hk, rfl, hl⟩ := insertFindHelper_some h
    rw [← hk] at hc hl ⊢
    refine ⟨t.storeValue n.payload.key ⟨some n.addr⟩ kv.value, ?_, ⟨?_, ?_⟩, rfl⟩
    · simp [LLIterator.get_eq hc, hl]
    · rw [← hk]
      exact lookup_storeValue hc kv.value
    · rw [← hk, hl]
      rfl

theorem insertFindHelper_at {t : HashTable V} {pre post : List (LLNode (HTKeyValue V))}
    {n : LLNode (HTKeyValue V)} (hc : (t.chain n.payload.key).nodes = pre ++ n :: post) :
    t.insertFindHelper n.payload.key = some ⟨some n.addr⟩ := by
  have hkeys := t.unique (t.hashKeyToBucketNum n.payload.key)
  change ((t.chain n.payload.key).payloads.map HTKeyValue.key).Nodup at hkeys
  simp only [LinkedList.payloads, hc, List.map_append, List.map_cons, List.nodup_append] at hkeys
  have hpre : ∀ m ∈ pre, ¬m.payload.key = n.payload.key := fun m hm =>
    hkeys.2.2 _ (List.mem_map_of_mem (List.mem_map_of_mem hm)) _ (by simp)
  have hf : pre.find? (fun m => m.payload.key = n.payload.key) = none := by simpa using hpre
  simp [insertFindHelper, hc, hf]

theorem remove_at {t : HashTable V} {pre post : List (LLNode (HTKeyValue V))}
    {n : LLNode (HTKeyValue V)} (hc : (t.chain n.payload.key).nodes = pre ++ n :: post) :
    ∃ c h, t.remove n.payload.key = .ok (t.dropPair n.payload.key c h, some n.payload) ∧
      c.nodes = pre ++ post := by
  obtain ⟨c, hr, hnodes⟩ := LLIterator.remove_spec hc
  simp only [remove, insertFindHelper_at hc, LLIterator.get_eq hc, Run.ok_bind]
  split
  · next e he => rw [hr] at he; cases he
  · next c' it' b he =>
    obtain rfl : c = c' := by rw [hr] at he; cases he; rfl
    exact ⟨c, LLIterator.remove_ok he, rfl, hnodes⟩

theorem remove_spec (t : HashTable V) (key : UInt64) :
    ∃ t', t.remove key = .ok (t', (t.lookup key).map (HTKeyValue.mk key)) ∧
      Removed t key t' ∧ t'.numBuckets = t.numBuckets := by
  cases h : t.insertFindHelper key with
  | none =>
      have hl := lookup_eq_none.mpr (insertFindHelper_none h)
      refine ⟨t, by simp [remove, h, hl], ⟨fun key' => ?_, by rw [hl]; rfl⟩, rfl⟩
      split
      · next he => rw [he, hl]
      · rfl
  | some li =>
      obtain ⟨pre, n, post, hc, rfl, rfl, hl⟩ := insertFindHelper_some h
      obtain ⟨c, h, hr, hnodes⟩ := remove_at hc
      refine ⟨_, by rw [hr, hl]; rfl, ⟨lookup_dropPair hc hnodes _, ?_⟩, rfl⟩
      rw [hl]
      rfl

theorem writeValue_spec {t : HashTable V} {key₀ : UInt64} (h : (t.lookup key₀).isSome) (value : V) :
    (∀ key, (t.writeValue key₀ value).lookup key = if key = key₀ then some value else t.lookup key) ∧
    (t.writeValue key₀ value).numElements = t.numElements ∧
    (t.writeValue key₀ value).numBuckets = t.numBuckets := by
  cases hf : t.insertFindHelper key₀ with
  | none =>
      have hl := lookup_eq_none.mpr (insertFindHelper_none hf)
      simp [hl] at h
  | some li =>
      obtain ⟨pre, n, post, hc, rfl, rfl, _⟩ := insertFindHelper_some hf
      simp only [writeValue, hf]
      exact ⟨lookup_storeValue hc value, rfl, rfl⟩

end HashTable

end SearchEngine
