import SearchEngine.HTIterator
import Mathlib.Order.Monotone.Basic

namespace SearchEngine.HashTable

open HTIterator

variable {V : Type}

/-- The copy loop of MaybeResize, over the pairs the iterator still visits. -/
def copyInto (ht : HashTable V) (insertInto : HashTable V → HTKeyValue V → Run (HashTable V)) :
    Nat → HTIterator → HashTable V → Run (HashTable V)
  | 0, _, _ => .error .outOfFuel
  | fuel + 1, it, newht => do
      if ← HTIterator.isValid ht it then
        match ← HTIterator.get ht it with
        | none => .error .verify333
        | some item =>
            let newht ← insertInto newht item
            let (it, _) ← HTIterator.next ht it
            copyInto ht insertInto fuel it newht
      else return newht

/-- MaybeResize and HashTable_Insert call each other; the first argument
bounds the depth of that recursion. -/
def maybeResize : Nat → HashTable V → Run (HashTable V)
  | 0, _ => .error .outOfFuel
  | depth + 1, ht => do
      if ht.numElements < (← intMul 3 ht.numBuckets) then return ht
      else
        let newht ← allocate (← intMul ht.numBuckets 9)
        let it ← HTIterator.allocate ht
        copyInto ht
          (fun newht item => do
            let newht ← maybeResize depth newht
            let (newht, _) ← newht.insertChain item
            return newht)
          (ht.numElements + 1) it newht

/-- Copying into a table nine times as large never resizes again, so depth
two is enough in every table within its load factor. -/
def insert (t : HashTable V) (newkeyvalue : HTKeyValue V) :
    Run (HashTable V × Option (HTKeyValue V)) := do
  let t ← maybeResize 2 t
  t.insertChain newkeyvalue

def Loaded (t : HashTable V) : Prop := t.numElements ≤ 3 * t.numBuckets

def nextNumBuckets (t : HashTable V) : Nat :=
  if t.numElements < 3 * t.numBuckets then t.numBuckets else 9 * t.numBuckets

theorem allocate_spec {n : Int} (hn : 0 < n) :
    ∃ t : HashTable V, allocate n = .ok t ∧ t.numElements = 0 ∧ t.numBuckets = n.toNat := by
  simp only [allocate, hn, dif_pos]
  exact ⟨_, rfl, rfl, rfl⟩

theorem lookup_of_numElements_zero {t : HashTable V} (h : t.numElements = 0) (key : UInt64) :
    t.lookup key = none := by
  have hp : t.pairs = [] := List.eq_nil_of_length_eq_zero (by rw [length_pairs, h])
  refine Option.eq_none_iff_forall_ne_some.mpr fun v hv => ?_
  have hm : (⟨key, v⟩ : HTKeyValue V) ∈ t.pairs := mem_pairs.mpr hv
  simp [hp] at hm

theorem maybeResize_stay {depth : Nat} {t : HashTable V} (hn : t.numElements < 3 * t.numBuckets)
    (hfit : 3 * t.numBuckets ≤ INT_MAX) : maybeResize (depth + 1) t = .ok t := by
  simp [maybeResize, intMul, hfit, hn]

/-- One insertion of the copy loop: the new table has room, so it is not
resized. -/
theorem copy_step {t : HashTable V} (kv : HTKeyValue V) (hn : t.numElements < 3 * t.numBuckets)
    (hfit : 3 * t.numBuckets ≤ INT_MAX) (depth : Nat) :
    ∃ t', (do
        let newht ← maybeResize (depth + 1) t
        let (newht, _) ← newht.insertChain kv
        return newht) = .ok t' ∧
      Inserted t kv t' ∧ t'.numBuckets = t.numBuckets := by
  obtain ⟨t', hins, hspec, hb⟩ := insertChain_spec t kv
  exact ⟨t', by simp [maybeResize_stay hn hfit, hins], hspec, hb⟩

theorem copyInto_spec {ht : HashTable V} (depth : Nat) (rest : List (HTKeyValue V)) (fuel : Nat)
    (hfuel : rest.length < fuel) (it : HTIterator) (hit : Points ht it rest) (newht : HashTable V)
    (hroom : newht.numElements + rest.length < 3 * newht.numBuckets)
    (hfit : 3 * newht.numBuckets ≤ INT_MAX) (hnodup : (rest.map HTKeyValue.key).Nodup)
    (hfresh : ∀ kv ∈ rest, newht.lookup kv.key = none) :
    ∃ t', copyInto ht
        (fun newht item => do
          let newht ← maybeResize (depth + 1) newht
          let (newht, _) ← newht.insertChain item
          return newht) fuel it newht = .ok t' ∧
      (∀ key value, t'.lookup key = some value ↔
        newht.lookup key = some value ∨ ⟨key, value⟩ ∈ rest) ∧
      t'.numElements = newht.numElements + rest.length ∧ t'.numBuckets = newht.numBuckets := by
  induction rest generalizing fuel it newht with
  | nil =>
      obtain ⟨fuel, rfl⟩ := Nat.exists_eq_succ_of_ne_zero (Nat.ne_of_gt hfuel)
      exact ⟨newht, by simp [copyInto, isValid_nil hit], by simp, by simp, rfl⟩
  | cons kv rest ih =>
      obtain ⟨fuel, rfl⟩ := Nat.exists_eq_succ_of_ne_zero (Nat.ne_of_gt (Nat.zero_lt_of_lt hfuel))
      simp only [List.length_cons, List.map_cons, List.nodup_cons] at hfuel hroom hnodup
      obtain ⟨t₁, hstep, hins, hb⟩ :=
        copy_step kv (by omega) hfit depth
      have hkey := hfresh kv (by simp)
      have hcount : t₁.numElements = newht.numElements + 1 := by simp [hins.count, hkey]
      obtain ⟨it', hnext, hit'⟩ := next_cons hit
      obtain ⟨t', hcopy, hlook, hn, hb'⟩ := ih fuel (by omega) it' hit' t₁ (by omega)
        (by rw [hb]; exact hfit) hnodup.2 (by
          intro kv' hkv'
          have hne : kv'.key ≠ kv.key := fun he => hnodup.1 (he ▸ List.mem_map_of_mem hkv')
          rw [hins.lookup, if_neg hne]
          exact hfresh kv' (by simp [hkv']))
      refine ⟨t', ?_, ?_, by rw [hn, hcount, List.length_cons]; omega, by rw [hb', hb]⟩
      · simp only [copyInto, isValid_cons hit, get_cons hit, Run.ok_bind, if_true, hstep, hnext]
        exact hcopy
      · intro key value
        rw [hlook, hins.lookup, List.mem_cons]
        by_cases hk : key = kv.key
        · subst hk
          obtain ⟨k, v⟩ := kv
          simp [hkey, eq_comm]
        · have hne : (⟨key, value⟩ : HTKeyValue V) ≠ kv := fun he => hk (congrArg HTKeyValue.key he)
          simp [hk, hne]

/-- A full table is copied into one nine times as large. -/
theorem maybeResize_full {t : HashTable V} (hfull : ¬t.numElements < 3 * t.numBuckets)
    (hfit : 9 * t.numBuckets ≤ INT_MAX) :
    ∃ newht it, allocate ((t.numBuckets * 9 : Nat) : Int) = .ok newht ∧ newht.numElements = 0 ∧
      newht.numBuckets = 9 * t.numBuckets ∧ HTIterator.allocate t = .ok it ∧ Points t it t.pairs ∧
      ∀ depth, maybeResize (depth + 1) t = copyInto t
        (fun newht item => do
          let newht ← maybeResize depth newht
          let (newht, _) ← newht.insertChain item
          return newht) (t.numElements + 1) it newht := by
  have hpos := t.pos
  obtain ⟨newht, halloc, hzero, hb⟩ := allocate_spec (V := V) (n := ((t.numBuckets * 9 : Nat) : Int))
    (by omega)
  obtain ⟨it, hit, hpoints⟩ := HTIterator.allocate_spec t
  have h3 : intMul 3 t.numBuckets = .ok (3 * t.numBuckets) := intMul_eq_ok.mpr ⟨by omega, rfl⟩
  have h9 : intMul t.numBuckets 9 = .ok (t.numBuckets * 9) := intMul_eq_ok.mpr ⟨by omega, rfl⟩
  refine ⟨newht, it, halloc, hzero, by omega, hit, hpoints, fun depth => ?_⟩
  rw [maybeResize]
  simp only [h3, h9, halloc, hit, Run.ok_bind, hfull, if_false]

/-- Any depth from two on is enough, and they all agree. -/
theorem maybeResize_within {t : HashTable V} (hload : t.Loaded) (hfit : 3 * t.nextNumBuckets ≤ INT_MAX)
    (depth : Nat) :
    ∃ t', maybeResize (depth + 2) t = .ok t' ∧ (∀ key, t'.lookup key = t.lookup key) ∧
      t'.numElements = t.numElements ∧ t'.numBuckets = t.nextNumBuckets := by
  have hpos := t.pos
  by_cases hn : t.numElements < 3 * t.numBuckets
  · simp only [nextNumBuckets, hn, if_true] at hfit ⊢
    exact ⟨t, maybeResize_stay hn hfit, fun _ => rfl, rfl, rfl⟩
  · simp only [nextNumBuckets, hn, if_false] at hfit ⊢
    unfold Loaded at hload
    obtain ⟨newht, it, _, hzero, hb, _, hpoints, hres⟩ := maybeResize_full hn (by omega)
    obtain ⟨t', hcopy, hlook, hcount, hb'⟩ := copyInto_spec depth t.pairs (t.numElements + 1)
      (by rw [length_pairs]; omega) it hpoints newht (by rw [length_pairs]; omega) (by omega)
      t.nodup_keys (fun kv _ => lookup_of_numElements_zero hzero kv.key)
    refine ⟨t', by rw [hres]; exact hcopy, fun key => Option.ext fun value => ?_,
      by rw [hcount, hzero, length_pairs]; omega, by omega⟩
    rw [hlook, lookup_of_numElements_zero hzero, mem_pairs]
    simp

theorem maybeResize_spec {t : HashTable V} (hload : t.Loaded) (hfit : 3 * t.nextNumBuckets ≤ INT_MAX) :
    ∃ t', maybeResize 2 t = .ok t' ∧ (∀ key, t'.lookup key = t.lookup key) ∧
      t'.numElements = t.numElements ∧ t'.numBuckets = t.nextNumBuckets :=
  maybeResize_within hload hfit 0

theorem insert_spec {t : HashTable V} (hload : t.Loaded) (hfit : 3 * t.nextNumBuckets ≤ INT_MAX)
    (kv : HTKeyValue V) :
    ∃ t', t.insert kv = .ok (t', (t.lookup kv.key).map (HTKeyValue.mk kv.key)) ∧ Inserted t kv t' ∧
      t'.numBuckets = t.nextNumBuckets ∧ t'.Loaded := by
  obtain ⟨t₁, hres, hlook, hcount, hb⟩ := maybeResize_spec hload hfit
  obtain ⟨t', hins, hspec, hb'⟩ := insertChain_spec t₁ kv
  have hpos := t.pos
  rw [hlook] at hins
  refine ⟨t', by simp [insert, hres, hins], ⟨?_, ?_⟩, by rw [hb', hb], ?_⟩
  · intro key
    rw [hspec.lookup, hlook]
  · rw [hspec.count, hlook, hcount]
  · have hc : t'.numElements ≤ t.numElements + 1 := by
      rw [hspec.count, hcount]
      split <;> omega
    unfold Loaded nextNumBuckets at *
    rw [hb', hb]
    split <;> omega

theorem Removed.loaded {t t' : HashTable V} {key : UInt64} (h : Removed t key t') (hb : t'.numBuckets = t.numBuckets)
    (hl : t.Loaded) : t'.Loaded := by
  have hc : t'.numElements ≤ t.numElements := by
    rw [h.count]
    split <;> omega
  unfold Loaded at *
  omega

/-- A bucket count that leaves int is the undefined overflow, in MaybeResize or
in the first insertion into the new table. -/
theorem insert_overflow {t : HashTable V} (h : INT_MAX < 3 * t.nextNumBuckets) (kv : HTKeyValue V) :
    t.insert kv = .error .signedOverflow := by
  have hpos := t.pos
  by_cases h3 : 3 * t.numBuckets ≤ INT_MAX
  · have hfull : ¬t.numElements < 3 * t.numBuckets := by
      intro hn
      simp only [nextNumBuckets, hn, if_true] at h
      omega
    simp only [nextNumBuckets, hfull, if_false] at h
    by_cases h9 : 9 * t.numBuckets ≤ INT_MAX
    · obtain ⟨newht, it, _, _, hb, _, hpoints, hres⟩ := maybeResize_full hfull h9
      cases hp : t.pairs with
      | nil =>
          have hl := t.length_pairs
          simp only [hp, List.length_nil] at hl
          omega
      | cons item rest =>
          rw [hp] at hpoints
          have hover : intMul 3 newht.numBuckets = .error .signedOverflow := if_neg (by omega)
          rw [insert, hres 1]
          simp only [copyInto, isValid_cons hpoints, get_cons hpoints, Run.ok_bind, if_true, maybeResize, hover,
            Run.error_bind]
    · have hmul : intMul 3 t.numBuckets = .ok (3 * t.numBuckets) := intMul_eq_ok.mpr ⟨h3, rfl⟩
      have hmul' : intMul t.numBuckets 9 = .error .signedOverflow := if_neg (by omega)
      simp only [insert, maybeResize, hmul, hmul', Run.ok_bind, hfull, if_false, Run.error_bind]
  · have hmul : intMul 3 t.numBuckets = .error .signedOverflow := if_neg h3
    simp only [insert, maybeResize, hmul, Run.error_bind]

/-- An insertion that returns had room: no product of MaybeResize overflowed,
those of the insertions made while copying included. -/
theorem fits_of_insert {t : HashTable V} {kv : HTKeyValue V} {r : HashTable V × Option (HTKeyValue V)}
    (h : t.insert kv = .ok r) : 3 * t.nextNumBuckets ≤ INT_MAX := by
  by_contra hover
  rw [insert_overflow (Nat.lt_of_not_le hover) kv] at h
  cases h

def bucketsFor (numBuckets : Nat) : Nat → Nat
  | 0 => numBuckets
  | n + 1 => if n < 3 * bucketsFor numBuckets n then bucketsFor numBuckets n else 9 * bucketsFor numBuckets n

/-- A table that started with so many buckets and only ever got new keys. -/
structure Grown (numBuckets : Nat) (t : HashTable V) : Prop where
  start : 0 < numBuckets
  buckets : t.numBuckets = bucketsFor numBuckets t.numElements
  fits : 3 * bucketsFor numBuckets t.numElements ≤ INT_MAX

theorem bucketsFor_le_succ (b n : Nat) : bucketsFor b n ≤ bucketsFor b (n + 1) := by
  simp only [bucketsFor]
  split <;> omega

theorem bucketsFor_mono (b : Nat) : Monotone (bucketsFor b) := monotone_nat_of_le_succ (bucketsFor_le_succ b)

theorem le_bucketsFor {b : Nat} (hb : 0 < b) (n : Nat) : n ≤ 3 * bucketsFor b n := by
  induction n with
  | zero => omega
  | succ n ih =>
      have hpos : 0 < bucketsFor b n := Nat.lt_of_lt_of_le hb (bucketsFor_mono b (Nat.zero_le n))
      simp only [bucketsFor]
      split <;> omega

theorem pow_succ_mul (b k : Nat) : b * 9 ^ (k + 1) = 9 * (b * 9 ^ k) := by
  rw [Nat.pow_succ, ← Nat.mul_assoc, Nat.mul_comm]

theorem pow_mul_le (b : Nat) {j k : Nat} (h : j ≤ k) : b * 9 ^ j ≤ b * 9 ^ k :=
  Nat.mul_le_mul_left b (Nat.pow_le_pow_right (by decide) h)

theorem bucketsFor_eq_pow (b n : Nat) : ∃ k, bucketsFor b n = b * 9 ^ k := by
  induction n with
  | zero => exact ⟨0, by simp [bucketsFor]⟩
  | succ n ih =>
      obtain ⟨k, hk⟩ := ih
      simp only [bucketsFor]
      split
      · exact ⟨k, hk⟩
      · exact ⟨k + 1, by rw [hk, pow_succ_mul]⟩

theorem bucketsFor_le_pow {b k n : Nat} (h : n ≤ 3 * (b * 9 ^ k)) : bucketsFor b n ≤ b * 9 ^ k := by
  induction n with
  | zero => simpa [bucketsFor] using pow_mul_le b (Nat.zero_le k)
  | succ n ih =>
      have hle := ih (by omega)
      simp only [bucketsFor]
      split
      · exact hle
      · next hfull =>
        obtain ⟨j, hj⟩ := bucketsFor_eq_pow b n
        rw [hj] at hfull ⊢
        -- a full table has fewer than the bound's buckets, so one factor nine is left
        have hlt : j < k := by
          by_contra hjk
          have := pow_mul_le b (Nat.le_of_not_lt hjk)
          omega
        rw [← pow_succ_mul]
        exact pow_mul_le b hlt

/-- The number of keys at which the bucket count leaves the range of int. -/
theorem fits_iff {b k n : Nat} (hb : 0 < b) (hlow : 3 * (b * 9 ^ k) ≤ INT_MAX)
    (hhigh : INT_MAX < 3 * (b * 9 ^ (k + 1))) : 3 * bucketsFor b n ≤ INT_MAX ↔ n ≤ 3 * (b * 9 ^ k) := by
  constructor
  · intro hfit
    obtain ⟨j, hj⟩ := bucketsFor_eq_pow b n
    have hle := le_bucketsFor hb n
    rw [hj] at hfit hle
    have hjk : j ≤ k := by
      by_contra hlt
      have := pow_mul_le b (show k + 1 ≤ j by omega)
      omega
    have := pow_mul_le b hjk
    omega
  · intro hn
    have := bucketsFor_le_pow hn
    omega

section

variable {b : Nat} {t t' : HashTable V} {kv : HTKeyValue V}

theorem Grown.loaded (h : Grown b t) : t.Loaded := by
  have hle := le_bucketsFor h.start t.numElements
  rwa [← h.buckets] at hle

theorem Grown.next (h : Grown b t) : t.nextNumBuckets = bucketsFor b (t.numElements + 1) := by
  rw [nextNumBuckets, h.buckets]
  rfl

theorem allocate_grown {n : Int} (hn : 0 < n) (hfit : 3 * n.toNat ≤ INT_MAX) :
    ∃ t : HashTable V, allocate n = .ok t ∧ t.numElements = 0 ∧ Grown n.toNat t := by
  obtain ⟨t, halloc, hzero, hb⟩ := allocate_spec (V := V) hn
  exact ⟨t, halloc, hzero, by omega, by rw [hzero, hb]; rfl, by rw [hzero]; exact hfit⟩

structure Added (b : Nat) (t : HashTable V) (kv : HTKeyValue V) (t' : HashTable V) : Prop where
  lookup : ∀ key, t'.lookup key = if key = kv.key then some kv.value else t.lookup key
  count : t'.numElements = t.numElements + 1
  grown : Grown b t'

theorem insert_new (kv : HTKeyValue V) (h : Grown b t) (hnew : t.lookup kv.key = none)
    (hfit : 3 * bucketsFor b (t.numElements + 1) ≤ INT_MAX) :
    ∃ t', t.insert kv = .ok (t', none) ∧ Added b t kv t' := by
  obtain ⟨t', hins, hspec, hb, _⟩ := insert_spec h.loaded (h.next ▸ hfit) kv
  rw [hnew] at hins
  have hcount : t'.numElements = t.numElements + 1 := by rw [hspec.count, hnew]; rfl
  exact ⟨t', hins, hspec.lookup, hcount, h.start, by rw [hb, h.next, hcount], by rw [hcount]; exact hfit⟩

theorem insert_new_ok {old : Option (HTKeyValue V)} (h : Grown b t) (hnew : t.lookup kv.key = none)
    (hins : t.insert kv = .ok (t', old)) : Added b t kv t' := by
  have hfit := fits_of_insert hins
  rw [h.next] at hfit
  obtain ⟨t₁, h₁, hadd⟩ := insert_new kv h hnew hfit
  obtain ⟨rfl, _⟩ : t₁ = t' ∧ _ := by simpa [h₁] using hins
  exact hadd

end

end SearchEngine.HashTable
