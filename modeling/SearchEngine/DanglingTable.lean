import SearchEngine.DanglingList
import SearchEngine.HashTable
import Mathlib.Algebra.Order.BigOperators.Group.List
import Mathlib.Algebra.Order.Group.Nat

/-! Hash tables whose chains are lists as LinkedList.c leaves them. -/

namespace SearchEngine

structure DanglingTable (V : Type) where
  numBuckets : Nat
  numElements : Nat
  buckets : List (DanglingList (HTKeyValue V))

namespace DanglingTable

open DanglingList

variable {V σ : Type}

def allocate (numBuckets : Int) : Run (DanglingTable V) :=
  if 0 < numBuckets then .ok ⟨numBuckets.toNat, 0, List.replicate numBuckets.toNat .allocate⟩
  else .error .verify333

def hashKeyToBucketNum (t : DanglingTable V) (key : UInt64) : Nat := key.toNat % t.numBuckets

def chain (t : DanglingTable V) (key : UInt64) : DanglingList (HTKeyValue V) :=
  t.buckets.getD (t.hashKeyToBucketNum key) .allocate

/-- The loop of InsertFindHelper. -/
def findNode (key : UInt64) : List (BlockNode (HTKeyValue V)) → Run (Option (HTKeyValue V))
  | [] => return none
  | n :: ns => do
      let kv ← follow n
      if kv.key = key then return some kv else findNode key ns

def insertFindHelper (t : DanglingTable V) (key : UInt64) : Run (Option (HTKeyValue V)) :=
  findNode key (t.chain key).nodes

def setChain (t : DanglingTable V) (key : UInt64) (c : DanglingList (HTKeyValue V)) (numElements : Nat) :
    DanglingTable V :=
  ⟨t.numBuckets, numElements, t.buckets.set (t.hashKeyToBucketNum key) c⟩

/-- A write to the value of a pair that was found. The pair is a block of its
own, so no node is read. -/
def storeValue (t : DanglingTable V) (key : UInt64) (value : V) : DanglingTable V :=
  t.setChain key
    ⟨(t.chain key).nodes.map fun n => if n.payload.key = key then ⟨⟨key, value⟩, n.live⟩ else n⟩ t.numElements

/-- The part of HashTable_Insert after MaybeResize. -/
def insertChain (t : DanglingTable V) (newkeyvalue : HTKeyValue V) :
    Run (DanglingTable V × Option (HTKeyValue V)) := do
  match ← t.insertFindHelper newkeyvalue.key with
  | none =>
      let c ← (t.chain newkeyvalue.key).append newkeyvalue
      return (t.setChain newkeyvalue.key c (t.numElements + 1), none)
  | some old => return (t.storeValue newkeyvalue.key newkeyvalue.value, some old)

def find (t : DanglingTable V) (key : UInt64) : Run (Option (HTKeyValue V)) := t.insertFindHelper key

/-- A loop over the table with an HTIterator: bucket by bucket, each pair read
from its node with HTIterator_Get. -/
def walk (body : σ → HTKeyValue V → Run σ) (s : σ) (t : DanglingTable V) : Run σ :=
  t.buckets.foldlM (fun s c => c.walk body s) s

def maybeResize : Nat → DanglingTable V → Run (DanglingTable V)
  | 0, _ => .error .outOfFuel
  | depth + 1, ht => do
      if ht.numElements < (← intMul 3 ht.numBuckets) then return ht
      else
        let newht ← allocate (← intMul ht.numBuckets 9)
        ht.walk (fun newht item => do
          let newht ← maybeResize depth newht
          let (newht, _) ← newht.insertChain item
          return newht) newht

def insert (t : DanglingTable V) (newkeyvalue : HTKeyValue V) :
    Run (DanglingTable V × Option (HTKeyValue V)) := do
  let t ← maybeResize 2 t
  t.insertChain newkeyvalue

/-- Every node of every chain was freed by the append that linked it in. -/
structure Freed (t : DanglingTable V) : Prop where
  pos : 0 < t.numBuckets
  size : t.buckets.length = t.numBuckets
  nodes : ∀ c ∈ t.buckets, c.AllFreed
  count : t.numElements = (t.buckets.map DanglingList.numElements).sum

section

variable {t t' : DanglingTable V} {key : UInt64} {kv : HTKeyValue V} {old : Option (HTKeyValue V)}

theorem allocate_freed {n : Int} (hn : 0 < n) :
    ∃ t : DanglingTable V, allocate n = .ok t ∧ Freed t ∧ t.numElements = 0 ∧ t.numBuckets = n.toNat ∧
      ∀ key, (t.chain key).nodes = [] := by
  refine ⟨_, if_pos hn, ⟨by dsimp only; omega, List.length_replicate, ?_, ?_⟩, rfl, rfl, ?_⟩
  · intro c hc
    rw [List.eq_of_mem_replicate hc]
    exact allFreed_allocate
  · simp [DanglingList.numElements, DanglingList.allocate]
  · intro key
    rw [chain, List.getD_eq_getElem?_getD, List.getElem?_replicate]
    split <;> rfl

theorem Freed.bucket_lt (h : t.Freed) (key : UInt64) : t.hashKeyToBucketNum key < t.buckets.length := by
  rw [h.size]
  exact Nat.mod_lt _ h.pos

theorem Freed.chain_mem (h : t.Freed) (key : UInt64) : t.chain key ∈ t.buckets := by
  rw [chain, List.getD_eq_getElem?_getD, List.getElem?_eq_getElem (h.bucket_lt key)]
  exact List.getElem_mem _

theorem Freed.chain (h : t.Freed) (key : UInt64) : (t.chain key).AllFreed := h.nodes _ (h.chain_mem key)

/-- Looking into a chain that is not empty reads a freed node. -/
theorem Freed.insertFindHelper (h : t.Freed) (key : UInt64) :
    t.insertFindHelper key = if (t.chain key).nodes = [] then .ok none else .error .badAccess := by
  rw [DanglingTable.insertFindHelper]
  cases hc : (t.chain key).nodes with
  | nil => simp [findNode]
  | cons n ns =>
      have hfreed := follow_freed (h.chain key n (by simp [hc]))
      simp [findNode, hfreed]

theorem Freed.find (h : t.Freed) (key : UInt64) :
    t.find key = if (t.chain key).nodes = [] then .ok none else .error .badAccess :=
  h.insertFindHelper key

theorem Freed.setChain (h : t.Freed) {c : DanglingList (HTKeyValue V)} {n : Nat} (hc : c.AllFreed)
    (hn : n + (t.chain key).numElements = t.numElements + c.numElements) : (t.setChain key c n).Freed where
  pos := h.pos
  size := by rw [DanglingTable.setChain, List.length_set, h.size]
  nodes := by
    intro c' hc'
    rcases List.mem_or_eq_of_mem_set hc' with hc' | rfl
    · exact h.nodes c' hc'
    · exact hc
  count := by
    have hlt := h.bucket_lt key
    have hold : t.buckets[t.hashKeyToBucketNum key] = t.chain key := by
      rw [DanglingTable.chain, List.getD_eq_getElem?_getD, List.getElem?_eq_getElem hlt]
      rfl
    have hsplit : t.buckets = t.buckets.take (t.hashKeyToBucketNum key) ++ t.chain key ::
        t.buckets.drop (t.hashKeyToBucketNum key + 1) := by
      rw [← hold, List.cons_getElem_drop_succ, List.take_append_drop]
    have hcount := h.count
    rw [hsplit] at hcount
    simp only [DanglingTable.setChain, List.set_eq_take_append_cons_drop, if_pos hlt]
    simp only [List.map_append, List.map_cons, List.sum_append, List.sum_cons] at hcount ⊢
    omega

theorem Freed.addPair (h : t.Freed) (kv : HTKeyValue V) (hnil : (t.chain key).nodes = []) :
    (t.setChain key ⟨[⟨kv, false⟩]⟩ (t.numElements + 1)).Freed :=
  h.setChain (by simp [AllFreed]) (by simp [DanglingList.numElements, hnil])

/-- Writing to a value leaves the nodes where they are. -/
theorem Freed.storeValue (h : t.Freed) (key : UInt64) (value : V) : (t.storeValue key value).Freed := by
  refine h.setChain ?_ ?_
  · intro n hn
    obtain ⟨m, hm, rfl⟩ := List.mem_map.mp hn
    have hdead := h.chain key m hm
    split <;> exact hdead
  · simp [DanglingList.numElements]

theorem chain_setChain (h : t.Freed) (c : DanglingList (HTKeyValue V)) (n : Nat) (key' : UInt64) :
    (t.setChain key c n).chain key' =
      if t.hashKeyToBucketNum key = t.hashKeyToBucketNum key' then c else t.chain key' := by
  have hlt := h.bucket_lt key
  change (t.buckets.set (t.hashKeyToBucketNum key) c).getD (t.hashKeyToBucketNum key') .allocate = _
  split
  · next he => simp [← he, List.getD_eq_getElem?_getD, hlt]
  · next hne => simp [chain, List.getD_eq_getElem?_getD, hne]

theorem chain_storeValue (h : t.Freed) (value : V) (key' : UInt64) :
    ((t.storeValue key value).chain key').nodes = [] ↔ (t.chain key').nodes = [] := by
  rw [storeValue, chain_setChain h]
  split
  · next he =>
    have hc : t.chain key = t.chain key' := by rw [chain, chain, he]
    simp [hc]
  · exact Iff.rfl

theorem insertChain_eq (h : t.Freed) (kv : HTKeyValue V) :
    t.insertChain kv =
      if (t.chain kv.key).nodes = [] then .ok (t.setChain kv.key ⟨[⟨kv, false⟩]⟩ (t.numElements + 1), none)
      else .error .badAccess := by
  rw [insertChain, h.insertFindHelper]
  split
  · next hnil => simp [append_nil hnil]
  · rfl

/-- A loop over a table with an element reads a freed node. -/
theorem walk_freed {n : DanglingList (HTKeyValue V)} (h : t.Freed) (hn : n ∈ t.buckets) (hne : n.nodes ≠ [])
    (body : σ → HTKeyValue V → Run σ) (s : σ) : t.walk body s = .error .badAccess := by
  have hall := h.nodes
  rw [walk]
  generalize t.buckets = cs at hn hall
  induction cs with
  | nil => cases hn
  | cons c cs ih =>
      rw [List.foldlM_cons]
      by_cases hc : c.nodes = []
      · rw [walk_nil hc, Run.ok_bind]
        rcases List.mem_cons.mp hn with rfl | hn
        · exact absurd hc hne
        · exact ih hn fun c hc => hall c (by simp [hc])
      · rw [DanglingList.walk_freed (hall c (by simp)) hc, Run.error_bind]

theorem walk_empty (hnil : ∀ c ∈ t.buckets, c.nodes = []) (body : σ → HTKeyValue V → Run σ) (s : σ) :
    t.walk body s = .ok s := by
  rw [walk]
  generalize t.buckets = cs at hnil
  induction cs with
  | nil => rfl
  | cons c cs ih =>
      rw [List.foldlM_cons, walk_nil (hnil c (by simp)), Run.ok_bind]
      exact ih fun c hc => hnil c (by simp [hc])

theorem Freed.empty_iff (h : t.Freed) : t.numElements = 0 ↔ ∀ c ∈ t.buckets, c.nodes = [] := by
  rw [h.count, List.sum_eq_zero_iff]
  constructor
  · intro hz c hc
    exact List.eq_nil_of_length_eq_zero (hz _ (List.mem_map_of_mem hc))
  · intro hall n hn
    obtain ⟨c, hc, rfl⟩ := List.mem_map.mp hn
    rw [DanglingList.numElements, hall c hc, List.length_nil]

theorem Freed.chain_nil (h : t.Freed) (hz : t.numElements = 0) (key : UInt64) : (t.chain key).nodes = [] :=
  h.empty_iff.mp hz _ (h.chain_mem key)

theorem Freed.walk (h : t.Freed) (body : σ → HTKeyValue V → Run σ) (s : σ) :
    t.walk body s = if t.numElements = 0 then .ok s else .error .badAccess := by
  split
  · next hz => exact walk_empty (h.empty_iff.mp hz) body s
  · next hz =>
    rw [h.empty_iff] at hz
    push Not at hz
    obtain ⟨c, hc, hne⟩ := hz
    exact walk_freed h hc hne body s

/-- A full table is not copied: the first pair that MaybeResize reads is in a
freed node. -/
theorem Freed.maybeResize_full (h : t.Freed) (hfull : 3 * t.numBuckets ≤ t.numElements)
    (hfit : 9 * t.numBuckets ≤ INT_MAX) (depth : Nat) : t.maybeResize (depth + 1) = .error .badAccess := by
  have hpos := h.pos
  have h3 : intMul 3 t.numBuckets = .ok (3 * t.numBuckets) := intMul_eq_ok.mpr ⟨by omega, rfl⟩
  have h9 : intMul t.numBuckets 9 = .ok (t.numBuckets * 9) := intMul_eq_ok.mpr ⟨by omega, rfl⟩
  obtain ⟨newht, halloc, _⟩ := allocate_freed (V := V) (n := ((t.numBuckets * 9 : Nat) : Int)) (by omega)
  simp only [maybeResize, h3, h9, halloc, Run.ok_bind, if_neg (Nat.not_lt.mpr hfull), h.walk,
    if_neg (show ¬t.numElements = 0 by omega)]

theorem maybeResize_stay {depth : Nat} (hn : t.numElements < 3 * t.numBuckets) (hfit : 3 * t.numBuckets ≤ INT_MAX) :
    t.maybeResize (depth + 1) = .ok t := by
  simp [maybeResize, intMul, hfit, hn]

/-- What an insertion needs to come back: room in the table, and an empty
chain. -/
theorem insert_ok (h : t.Freed) (hins : t.insert kv = .ok (t', old)) :
    t.numElements < 3 * t.numBuckets ∧ (t.chain kv.key).nodes = [] ∧ old = none ∧
      t' = t.setChain kv.key ⟨[⟨kv, false⟩]⟩ (t.numElements + 1) := by
  obtain ⟨t₁, hres, hchain⟩ := Run.bind_eq_ok.mp hins
  have hpos := h.pos
  by_cases h3 : 3 * t.numBuckets ≤ INT_MAX
  · by_cases hn : t.numElements < 3 * t.numBuckets
    · rw [maybeResize_stay hn h3] at hres
      obtain rfl := Except.ok.inj hres
      rw [insertChain_eq h] at hchain
      by_cases hnil : (t.chain kv.key).nodes = []
      · rw [if_pos hnil] at hchain
        cases hchain
        exact ⟨hn, hnil, rfl, rfl⟩
      · rw [if_neg hnil] at hchain
        cases hchain
    · by_cases h9 : 9 * t.numBuckets ≤ INT_MAX
      · rw [h.maybeResize_full (Nat.le_of_not_lt hn) h9] at hres
        cases hres
      · have hmul : intMul 3 t.numBuckets = .ok (3 * t.numBuckets) := intMul_eq_ok.mpr ⟨h3, rfl⟩
        have hover : intMul t.numBuckets 9 = .error .signedOverflow := if_neg (by omega)
        simp only [maybeResize, hmul, hover, Run.ok_bind, if_neg hn, Run.error_bind] at hres
        cases hres
  · have hover : intMul 3 t.numBuckets = .error .signedOverflow := if_neg h3
    simp only [maybeResize, hover, Run.error_bind] at hres
    cases hres

theorem insert_new (kv : HTKeyValue V) (h : t.Freed) (hn : t.numElements < 3 * t.numBuckets)
    (hfit : 3 * t.numBuckets ≤ INT_MAX) (hnil : (t.chain kv.key).nodes = []) :
    t.insert kv = .ok (t.setChain kv.key ⟨[⟨kv, false⟩]⟩ (t.numElements + 1), none) := by
  rw [insert, maybeResize_stay hn hfit, Run.ok_bind, insertChain_eq h, if_pos hnil]

theorem insert_freed (h : t.Freed) (hins : t.insert kv = .ok (t', old)) :
    t'.Freed ∧ t'.numElements = t.numElements + 1 := by
  obtain ⟨_, hnil, _, rfl⟩ := insert_ok h hins
  exact ⟨h.addPair kv hnil, rfl⟩

end

/-- The second pair of a bucket is never inserted, and a full table never
copied. -/
theorem maybeResize_reads_freed :
    (∃ t t₁ : DanglingTable Char, allocate 1 = .ok t ∧ t.insert ⟨1, 'a'⟩ = .ok (t₁, none) ∧
      t₁.insert ⟨2, 'b'⟩ = .error .badAccess) ∧
    ∀ t : DanglingTable Char, t.Freed → 3 * t.numBuckets ≤ t.numElements → 9 * t.numBuckets ≤ INT_MAX →
      t.maybeResize 2 = .error .badAccess := by
  constructor
  · exact ⟨_, _, rfl, rfl, rfl⟩
  · intro t h hfull hfit
    exact h.maybeResize_full hfull hfit 1

end DanglingTable

end SearchEngine
