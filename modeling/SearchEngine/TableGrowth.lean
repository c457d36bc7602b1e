import SearchEngine.TableMap
import Mathlib.Data.Nat.Log
import Mathlib.Tactic.Ring

namespace SearchEngine.HashTable

open HTIterator

variable {V : Type}

/-- A table made by the functions of HashTable.h: the calls that change one
are Insert, Remove and the removal through an iterator. -/
inductive Reachable [DecidableEq V] : HashTable V → Prop
  | allocate {n : Int} {t : HashTable V} (h : HashTable.allocate n = .ok t) : Reachable t
  | insert {t t' : HashTable V} {kv : HTKeyValue V} {old : Option (HTKeyValue V)} (ht : Reachable t)
      (h : t.insert kv = .ok (t', old)) : Reachable t'
  | remove {t t' : HashTable V} {key : UInt64} {old : Option (HTKeyValue V)} (ht : Reachable t)
      (h : t.remove key = .ok (t', old)) : Reachable t'
  | removeAt {t t' : HashTable V} {it it' : HTIterator} {old : Option (HTKeyValue V)} (ht : Reachable t)
      (h : HTIterator.remove t it = .ok (t', it', old)) : Reachable t'

theorem allocate_loaded {n : Int} {t : HashTable V} (h : HashTable.allocate n = .ok t) : t.Loaded := by
  by_cases hn : 0 < n
  · obtain ⟨t₀, h₀, hzero, _⟩ := allocate_spec (V := V) hn
    obtain rfl : t₀ = t := by rw [h₀] at h; cases h; rfl
    unfold Loaded
    omega
  · simp [HashTable.allocate, hn] at h

theorem insert_loaded {t t' : HashTable V} {kv : HTKeyValue V} {old : Option (HTKeyValue V)} (hl : t.Loaded)
    (h : t.insert kv = .ok (t', old)) : t'.Loaded := by
  obtain ⟨t₁, h₁, _, _, hl₁⟩ := insert_spec hl (fits_of_insert h) kv
  obtain rfl : t₁ = t' := by rw [h₁] at h; cases h; rfl
  exact hl₁

theorem remove_loaded {t t' : HashTable V} {key : UInt64} {old : Option (HTKeyValue V)} (hl : t.Loaded)
    (h : t.remove key = .ok (t', old)) : t'.Loaded := by
  obtain ⟨t₁, h₁, hrem, hb⟩ := remove_spec t key
  obtain rfl : t₁ = t' := by rw [h₁] at h; cases h; rfl
  exact hrem.loaded hb hl

/-- HTIterator_Remove changes the table by HashTable_Remove, if at all. -/
theorem removeAt_cases [DecidableEq V] {t t' : HashTable V} {it it' : HTIterator} {old : Option (HTKeyValue V)}
    (h : HTIterator.remove t it = .ok (t', it', old)) :
    t' = t ∨ ∃ key removed, t.remove key = .ok (t', removed) := by
  obtain ⟨got, _, h⟩ := Run.bind_eq_ok.mp h
  cases got with
  | none =>
      cases h
      exact Or.inl rfl
  | some kv =>
      obtain ⟨⟨it₁, more⟩, _, h⟩ := Run.bind_eq_ok.mp h
      obtain ⟨⟨t₁, removed⟩, hrem, h⟩ := Run.bind_eq_ok.mp h
      cases removed with
      | none => cases h
      | some keyvalue =>
          obtain ⟨_, _, h⟩ := Run.bind_eq_ok.mp h
          obtain ⟨_, _, h⟩ := Run.bind_eq_ok.mp h
          cases h
          exact Or.inr ⟨kv.key, _, hrem⟩

theorem Reachable.loaded [DecidableEq V] {t : HashTable V} (h : Reachable t) : t.Loaded := by
  induction h with
  | allocate h => exact allocate_loaded h
  | insert _ h ih => exact insert_loaded ih h
  | remove _ h ih => exact remove_loaded ih h
  | removeAt _ h ih =>
      rcases removeAt_cases h with rfl | ⟨key, removed, hrem⟩
      · exact ih
      · exact remove_loaded ih hrem

/-- HashTable_Insert as the copy loop calls it, within a depth of calls. -/
def insertWithin (depth : Nat) (newht : HashTable V) (item : HTKeyValue V) : Run (HashTable V) := do
  let newht ← maybeResize depth newht
  let (newht, _) ← newht.insertChain item
  return newht

/-- The copy loop with the tables that it calls HashTable_Insert on. -/
def copyTraced (ht : HashTable V) (insertInto : HashTable V → HTKeyValue V → Run (HashTable V)) :
    Nat → HTIterator → HashTable V → Run (HashTable V × List (HashTable V))
  | 0, _, _ => .error .outOfFuel
  | fuel + 1, it, newht => do
      if ← HTIterator.isValid ht it then
        match ← HTIterator.get ht it with
        | none => .error .verify333
        | some item =>
            let newht' ← insertInto newht item
            let (it, _) ← HTIterator.next ht it
            let (newht', later) ← copyTraced ht insertInto fuel it newht'
            return (newht', newht :: later)
      else return (newht, [])

theorem copyTraced_fst (ht : HashTable V) (insertInto : HashTable V → HTKeyValue V → Run (HashTable V))
    (fuel : Nat) (it : HTIterator) (newht : HashTable V) :
    (do
      let r ← copyTraced ht insertInto fuel it newht
      return r.1) = copyInto ht insertInto fuel it newht := by
  induction fuel generalizing it newht with
  | zero => rfl
  | succ fuel ih =>
      simp only [copyTraced, copyInto, bind_assoc]
      apply bind_congr
      intro valid
      cases valid with
      | false => rfl
      | true =>
          simp only [if_true, bind_assoc]
          apply bind_congr
          intro got
          cases got with
          | none => rfl
          | some item =>
              simp only [bind_assoc, pure_bind]
              apply bind_congr
              intro newht'
              apply bind_congr
              intro next
              exact ih next.1 newht'

/-- A table that HashTable_Insert leaves in place: no product overflows and the
load is below the limit. -/
structure Roomy (t : HashTable V) : Prop where
  room : t.numElements < 3 * t.numBuckets
  fits : 3 * t.numBuckets ≤ INT_MAX

theorem Roomy.stays {t : HashTable V} (h : Roomy t) (depth : Nat) : maybeResize (depth + 1) t = .ok t :=
  maybeResize_stay h.room h.fits

theorem Roomy.insertWithin {t : HashTable V} (h : Roomy t) (kv : HTKeyValue V) :
    ∃ t', (∀ depth, insertWithin (depth + 1) t kv = .ok t') ∧ t'.numElements ≤ t.numElements + 1 ∧
      t'.numBuckets = t.numBuckets := by
  obtain ⟨t', hins, hspec, hb⟩ := insertChain_spec t kv
  refine ⟨t', fun depth => by simp [HashTable.insertWithin, h.stays, hins], ?_, hb⟩
  rw [hspec.count]
  split <;> omega

/-- With room for all that is left to copy, every call stays in place, at
whatever depth the calls are made. -/
theorem copyTraced_roomy {ht : HashTable V} (rest : List (HTKeyValue V)) (fuel : Nat)
    (hfuel : rest.length < fuel) (it : HTIterator) (hit : Points ht it rest) (newht : HashTable V)
    (hroom : newht.numElements + rest.length < 3 * newht.numBuckets) (hfit : 3 * newht.numBuckets ≤ INT_MAX) :
    ∃ t' tables, (∀ depth, copyTraced ht (insertWithin (depth + 1)) fuel it newht = .ok (t', tables)) ∧
      tables.length = rest.length ∧ ∀ t ∈ tables, Roomy t := by
  induction rest generalizing fuel it newht with
  | nil =>
      obtain ⟨fuel, rfl⟩ := Nat.exists_eq_succ_of_ne_zero (Nat.ne_of_gt hfuel)
      exact ⟨newht, [], fun depth => by simp [copyTraced, isValid_nil hit], rfl, by simp⟩
  | cons kv rest ih =>
      obtain ⟨fuel, rfl⟩ := Nat.exists_eq_succ_of_ne_zero (Nat.ne_of_gt (Nat.zero_lt_of_lt hfuel))
      simp only [List.length_cons] at hfuel hroom
      have hroomy : Roomy newht := ⟨by omega, hfit⟩
      obtain ⟨t₁, hstep, hcount, hb⟩ := hroomy.insertWithin kv
      obtain ⟨it', hnext, hit'⟩ := next_cons hit
      obtain ⟨t', tables, hcopy, hlen, hall⟩ := ih fuel (by omega) it' hit' t₁ (by omega) (by rw [hb]; exact hfit)
      refine ⟨t', newht :: tables, fun depth => ?_, by rw [List.length_cons, List.length_cons, hlen], ?_⟩
      · simp [copyTraced, isValid_cons hit, get_cons hit, hstep depth, hnext, hcopy depth]
      · intro t ht
        rcases List.mem_cons.mp ht with rfl | ht
        · exact hroomy
        · exact hall t ht

/-- The calls of HashTable_Insert that copying a table makes: one for each
element, each on a table that stays as it is. -/
structure CopiedInPlace (t t' : HashTable V) : Prop where
  calls : ∃ newht it tables, allocate ((t.numBuckets * 9 : Nat) : Int) = .ok newht ∧
    HTIterator.allocate t = .ok it ∧
    (∀ depth, copyTraced t (insertWithin (depth + 1)) (t.numElements + 1) it newht = .ok (t', tables)) ∧
    tables.length = t.numElements ∧
    ∀ u ∈ tables, u.numElements < 3 * u.numBuckets ∧ ∀ depth, maybeResize (depth + 1) u = .ok u

theorem copied_in_place {t : HashTable V} (hload : t.Loaded) (hfull : ¬t.numElements < 3 * t.numBuckets)
    (hfit : 27 * t.numBuckets ≤ INT_MAX) :
    ∃ t', (∀ depth, maybeResize (depth + 2) t = .ok t') ∧ CopiedInPlace t t' := by
  have hpos := t.pos
  unfold Loaded at hload
  obtain ⟨newht, it, halloc, hzero, hb, hit, hpoints, hres⟩ := maybeResize_full hfull (by omega)
  obtain ⟨t', tables, hcopy, hlen, hroomy⟩ := copyTraced_roomy t.pairs (t.numElements + 1)
    (by rw [length_pairs]; omega) it hpoints newht (by rw [length_pairs]; omega) (by omega)
  rw [length_pairs] at hlen
  refine ⟨t', fun depth => ?_, newht, it, tables, halloc, hit, hcopy, hlen,
    fun u hu => ⟨(hroomy u hu).room, (hroomy u hu).stays⟩⟩
  have hfst := copyTraced_fst t (insertWithin (depth + 1)) (t.numElements + 1) it newht
  rw [hcopy] at hfst
  rw [hres (depth + 1)]
  exact hfst.symm

/-- What a resize makes of a table. -/
structure Resized (t t' : HashTable V) : Prop where
  numBuckets : t'.numBuckets = 9 * t.numBuckets
  numElements : t'.numElements = t.numElements
  pairs : t'.pairs.Perm t.pairs
  buckets : t'.buckets.length = 9 * t.numBuckets
  placed : ∀ i, ∀ kv ∈ (t'.chainAt i).payloads, kv.key.toNat % (9 * t.numBuckets) = i
  keys : (t'.pairs.map HTKeyValue.key).Nodup
  copied : CopiedInPlace t t'

theorem resized {t : HashTable V} (hload : t.Loaded) (hfull : ¬t.numElements < 3 * t.numBuckets)
    (hfit : 27 * t.numBuckets ≤ INT_MAX) :
    ∃ t', (∀ depth, maybeResize (depth + 2) t = .ok t') ∧ Resized t t' := by
  have hnext : t.nextNumBuckets = 9 * t.numBuckets := if_neg hfull
  obtain ⟨t', hres, hcopied⟩ := copied_in_place hload hfull hfit
  obtain ⟨t₁, h₁, hlook, hcount, hb⟩ := maybeResize_spec hload (by omega)
  obtain rfl : t₁ = t' := by rw [hres 0] at h₁; cases h₁; rfl
  rw [hnext] at hb
  refine ⟨t₁, hres, hb, hcount, ?_, by rw [t₁.size, hb], ?_, t₁.nodup_keys, hcopied⟩
  · refine pairs_perm t.nodup_keys fun kv => ?_
    rw [hlook, mem_pairs]
  · intro i kv hkv
    have hplaced := t₁.placed i kv hkv
    rwa [hb] at hplaced

/-- A resize keeps what the table holds and does not resize again. -/
theorem maybeResize_preserves [DecidableEq V] {t : HashTable V} (ht : Reachable t) :
    t.numElements ≤ 3 * t.numBuckets ∧
    (27 * t.numBuckets < 2 ^ 31 →
      (t.numElements < 3 * t.numBuckets → ∀ depth, maybeResize (depth + 1) t = .ok t) ∧
      (¬t.numElements < 3 * t.numBuckets →
        ∃ t', (∀ depth, maybeResize (depth + 2) t = .ok t') ∧ Resized t t')) := by
  have hload := ht.loaded
  refine ⟨hload, fun hb => ⟨fun hroom depth => ?_, fun hfull => ?_⟩⟩
  · exact maybeResize_stay hroom (by unfold INT_MAX; omega)
  · exact resized hload hfull (by unfold INT_MAX; omega)

theorem maybeResize_preserves_three :
    ∃ t t' : HashTable Char, t.numElements = 3 ∧ t.numBuckets = 1 ∧ maybeResize 2 t = .ok t' ∧ Resized t t' := by
  obtain ⟨t₀, h₀, hzero, hg₀⟩ := allocate_grown (V := Char) (show (0 : Int) < 1 by decide) (by decide)
  have hr₀ : Reachable t₀ := .allocate h₀
  obtain ⟨t₁, h₁, ha₁⟩ := insert_new ⟨1, 'a'⟩ hg₀ (lookup_of_numElements_zero hzero 1) (by rw [hzero]; decide)
  have hn₁ : t₁.numElements = 1 := by rw [ha₁.count, hzero]
  obtain ⟨t₂, h₂, ha₂⟩ := insert_new ⟨2, 'b'⟩ ha₁.grown
    (by rw [ha₁.lookup, lookup_of_numElements_zero hzero]; rfl) (by rw [hn₁]; decide)
  have hn₂ : t₂.numElements = 2 := by rw [ha₂.count, hn₁]
  obtain ⟨t₃, h₃, ha₃⟩ := insert_new ⟨3, 'c'⟩ ha₂.grown
    (by rw [ha₂.lookup, ha₁.lookup, lookup_of_numElements_zero hzero]; rfl) (by rw [hn₂]; decide)
  have hn₃ : t₃.numElements = 3 := by rw [ha₃.count, hn₂]
  have hb₃ : t₃.numBuckets = 1 := by rw [ha₃.grown.buckets, hn₃]; rfl
  have hr₃ : Reachable t₃ := ((hr₀.insert h₁).insert h₂).insert h₃
  obtain ⟨_, hresize⟩ := maybeResize_preserves hr₃
  obtain ⟨t', hres, hresized⟩ := (hresize (by omega)).2 (by omega)
  exact ⟨t₃, t', hn₃, hb₃, hres 0, hresized⟩

end SearchEngine.HashTable

namespace SearchEngine.TableMap

open Simulation

variable {V : Type}

/-- The bucket count after the next insertion. -/
def Spec.grown (s : Spec V) : Nat :=
  if s.bindings.keys.card < 3 * s.numBuckets then s.numBuckets else 9 * s.numBuckets

/-- What MaybeResize works out before a returned insertion: products within int,
and the load that decides about the bucket count. -/
structure ResizeExact (t t' : HashTable V) : Prop where
  triple : 3 * t.numBuckets ≤ INT_MAX
  stays : t.numElements < 3 * t.numBuckets → t'.numBuckets = t.numBuckets
  grows : 3 * t.numBuckets ≤ t.numElements →
    t.numBuckets * 9 ≤ INT_MAX ∧ 0 < t.numBuckets * 9 ∧ 3 * (t.numBuckets * 9) ≤ INT_MAX ∧
      t'.numBuckets = t.numBuckets * 9

/-- No product of the run overflows, and each insertion resizes by the load. -/
structure ArithmeticInRange (n : Int) (ops : List (Op V)) : Prop where
  returns : ∃ r, runFrom n ops = .ok r
  exact : ∀ calls kv, calls ++ [.insert kv] <+: ops → ∃ t outs t' old, runFrom n calls = .ok (t, outs) ∧
    t.insert kv = .ok (t', old) ∧ ResizeExact t t'

/-- The insertions of a run, each with the abstract state that it finds. -/
def AtInserts (s : Spec V) (ops : List (Op V)) (P : Spec V → Prop) : Prop :=
  ∀ calls kv, calls ++ [.insert kv] <+: ops → P (specRun Spec.step s calls).1

theorem atInserts_cons {s : Spec V} {op : Op V} {ops : List (Op V)} {P : Spec V → Prop} :
    AtInserts s (op :: ops) P ↔ (∀ kv, op = .insert kv → P s) ∧ AtInserts (s.step op).1 ops P := by
  constructor
  · intro h
    refine ⟨fun kv hop => h [] kv ?_, fun calls kv hcalls => h (op :: calls) kv ?_⟩
    · rw [hop]
      exact ⟨ops, rfl⟩
    · exact List.cons_prefix_cons.mpr ⟨rfl, hcalls⟩
  · rintro ⟨hhead, htail⟩ calls kv hcalls
    cases calls with
    | nil => exact hhead kv (List.cons_prefix_cons.mp hcalls).1.symm
    | cons op' calls =>
        obtain ⟨rfl, htl⟩ := List.cons_prefix_cons.mp hcalls
        exact htail calls kv htl

theorem fits_of_step {t t' : HashTable V} {s : Spec V} {op : Op V} {out : Option (HTKeyValue V)}
    (h : Represents t s) (hstep : step t op = .ok (t', out)) : ∀ kv, op = .insert kv → 3 * s.grown ≤ INT_MAX := by
  rintro kv rfl
  have hfit := HashTable.fits_of_insert hstep
  rwa [h.nextNumBuckets kv] at hfit

theorem insertFits {s : Spec V} {op : Op V} (h : ∀ kv, op = .insert kv → 3 * s.grown ≤ INT_MAX) : InsertFits s op := by
  rintro kv rfl
  exact h kv rfl

theorem run_represents (ops : List (Op V)) {t : HashTable V} {s : Spec V} (h : Represents t s)
    (hfit : AtInserts s ops fun s => 3 * s.grown ≤ INT_MAX) :
    ∃ t' outs, run step t ops = .ok (t', outs) ∧ Represents t' (specRun Spec.step s ops).1 := by
  induction ops generalizing t s with
  | nil => exact ⟨t, [], rfl, h⟩
  | cons op ops ih =>
      obtain ⟨hhead, htail⟩ := atInserts_cons.mp hfit
      obtain ⟨t₁, hstep, hR⟩ := step_represents t s op h (insertFits hhead)
      obtain ⟨t', outs, hrun, hR'⟩ := ih hR htail
      exact ⟨t', (s.step op).2 :: outs, Run.bind_eq_ok.mpr ⟨_, hstep, Run.bind_eq_ok.mpr ⟨_, hrun, rfl⟩⟩, hR'⟩

theorem fits_of_run (ops : List (Op V)) {t : HashTable V} {s : Spec V} (h : Represents t s)
    {r : HashTable V × List (Option (HTKeyValue V))} (hrun : run step t ops = .ok r) :
    AtInserts s ops fun s => 3 * s.grown ≤ INT_MAX := by
  induction ops generalizing t s r with
  | nil =>
      intro calls kv hcalls
      simp at hcalls
  | cons op ops ih =>
      obtain ⟨⟨t₁, out⟩, hstep, hrun⟩ := Run.bind_eq_ok.mp hrun
      obtain ⟨rest, hrest, _⟩ := Run.bind_eq_ok.mp hrun
      have hhead := fits_of_step h hstep
      obtain ⟨t', hstep', hR⟩ := step_represents t s op h (insertFits hhead)
      obtain rfl : t' = t₁ := by rw [hstep'] at hstep; cases hstep; rfl
      exact atInserts_cons.mpr ⟨hhead, ih hR hrest⟩

/-- The number of pairs from which the next resize leaves int, for a table that
starts with so many buckets. -/
def capacity (numBuckets : Nat) : Nat :=
  if 3 * numBuckets ≤ INT_MAX then 3 * (numBuckets * 9 ^ Nat.log 9 (INT_MAX / (3 * numBuckets))) else 0

theorem capacity_spec {b : Nat} (hb : 0 < b) (hfit : 3 * b ≤ INT_MAX) :
    ∃ k, capacity b = 3 * (b * 9 ^ k) ∧ 3 * (b * 9 ^ k) ≤ INT_MAX ∧ INT_MAX < 3 * (b * 9 ^ (k + 1)) := by
  have hpos : 0 < 3 * b := by omega
  have hquot : INT_MAX / (3 * b) ≠ 0 := Nat.ne_of_gt (Nat.div_pos hfit hpos)
  refine ⟨Nat.log 9 (INT_MAX / (3 * b)), if_pos hfit, ?_, ?_⟩
  · have hle := Nat.pow_log_le_self 9 hquot
    have h := (Nat.le_div_iff_mul_le hpos).mp hle
    calc 3 * (b * 9 ^ Nat.log 9 (INT_MAX / (3 * b)))
        = 9 ^ Nat.log 9 (INT_MAX / (3 * b)) * (3 * b) := by ring
      _ ≤ INT_MAX := h
  · have hlt := Nat.lt_pow_succ_log_self (b := 9) (by decide) (INT_MAX / (3 * b))
    have h := (Nat.div_lt_iff_lt_mul hpos).mp hlt
    calc INT_MAX < 9 ^ (Nat.log 9 (INT_MAX / (3 * b)) + 1) * (3 * b) := h
      _ = 3 * (b * 9 ^ (Nat.log 9 (INT_MAX / (3 * b)) + 1)) := by ring

theorem calls_of_snoc {ops calls : List (Op V)} {op : Op V} (h : calls ++ [op] <+: ops) : calls <+: ops :=
  (List.prefix_append calls [op]).trans h

/-- The bucket counts of a run are the initial one times powers of nine. -/
theorem numBuckets_pow (b : Nat) (ops : List (Op V)) :
    ∃ j, (specRun Spec.step (Spec.init b : Spec V) ops).1.numBuckets = b * 9 ^ j := by
  induction ops using List.reverseRecOn with
  | nil => exact ⟨0, by simp [Spec.init]⟩
  | append_singleton calls op ih =>
      obtain ⟨j, hj⟩ := ih
      rw [specRun_append_fst]
      cases op with
      | insert kv =>
          simp only [specRun_cons, specRun_nil, Spec.step]
          split
          · exact ⟨j, hj⟩
          · exact ⟨j + 1, by rw [hj, HashTable.pow_succ_mul]⟩
      | find key | remove key => exact ⟨j, hj⟩

/-- As long as no insertion finds so many pairs, the bucket count does not pass
the last power that fits. -/
theorem numBuckets_le {b k : Nat} {ops : List (Op V)}
    (h : AtInserts (Spec.init b) ops fun s => s.bindings.keys.card < 3 * (b * 9 ^ k)) (calls : List (Op V))
    (hcalls : calls <+: ops) : (specRun Spec.step (Spec.init b : Spec V) calls).1.numBuckets ≤ b * 9 ^ k := by
  induction calls using List.reverseRecOn with
  | nil => simpa [Spec.init] using HashTable.pow_mul_le b (Nat.zero_le k)
  | append_singleton calls op ih =>
      have hle := ih (calls_of_snoc hcalls)
      rw [specRun_append_fst]
      cases op with
      | insert kv =>
          have hcard := h calls kv hcalls
          obtain ⟨j, hj⟩ := numBuckets_pow (V := V) b calls
          simp only [specRun_cons, specRun_nil, Spec.step]
          split
          · exact hle
          · next hfull =>
            -- a table that is full below the limit has fewer than the last power's buckets
            rw [hj] at hfull ⊢
            have hlt : j < k := by
              by_contra hjk
              have := HashTable.pow_mul_le b (Nat.le_of_not_lt hjk)
              omega
            rw [← HashTable.pow_succ_mul]
            exact HashTable.pow_mul_le b hlt
      | find key | remove key => exact hle

theorem card_insert_le (m : Finmap fun _ : UInt64 => V) (key : UInt64) (value : V) :
    (m.insert key value).keys.card ≤ m.keys.card + 1 := by
  have hsub : (m.insert key value).keys ⊆ insert key m.keys := by
    intro key' hkey'
    rw [Finset.mem_insert, Finmap.mem_keys]
    exact Finmap.mem_insert.mp (Finmap.mem_keys.mp hkey')
  exact Nat.le_trans (Finset.card_le_card hsub) (Finset.card_insert_le key m.keys)

/-- The load rule keeps the abstract map within three pairs a bucket. -/
theorem card_le {b : Nat} (hb : 0 < b) (ops : List (Op V)) :
    (specRun Spec.step (Spec.init b : Spec V) ops).1.bindings.keys.card ≤
      3 * (specRun Spec.step (Spec.init b : Spec V) ops).1.numBuckets := by
  induction ops using List.reverseRecOn with
  | nil => simp [Spec.init]
  | append_singleton calls op ih =>
      obtain ⟨j, hj⟩ := numBuckets_pow (V := V) b calls
      have hpos : 0 < b * 9 ^ j := Nat.mul_pos hb (Nat.pow_pos (by decide))
      rw [specRun_append_fst]
      cases op with
      | insert kv =>
          have hcard := card_insert_le (specRun Spec.step (Spec.init b : Spec V) calls).1.bindings kv.key kv.value
          simp only [specRun_cons, specRun_nil, Spec.step]
          split <;> omega
      | find key => exact ih
      | remove key =>
          have hcard : ((specRun Spec.step (Spec.init b : Spec V) calls).1.bindings.erase key).keys.card ≤
              (specRun Spec.step (Spec.init b : Spec V) calls).1.bindings.keys.card := by
            rw [Finmap.keys_erase]
            exact Finset.card_erase_le
          exact Nat.le_trans hcard ih

/-- With too many pairs there are at least the last power's buckets, all of
them full, and the next count leaves int. -/
theorem card_lt_of_fits {b j k card : Nat} (hb : 0 < b) (hhigh : INT_MAX < 3 * (b * 9 ^ (k + 1)))
    (hle : card ≤ 3 * (b * 9 ^ j))
    (hfit : 3 * (if card < 3 * (b * 9 ^ j) then b * 9 ^ j else 9 * (b * 9 ^ j)) ≤ INT_MAX) :
    card < 3 * (b * 9 ^ k) := by
  by_contra hfull
  have hkj : k ≤ j := by
    by_contra hjk
    have hpow := HashTable.pow_mul_le b (show j + 1 ≤ k by omega)
    rw [HashTable.pow_succ_mul] at hpow
    have hpos : 0 < b * 9 ^ j := Nat.mul_pos hb (Nat.pow_pos (by decide))
    omega
  have hpow := HashTable.pow_mul_le b hkj
  rw [HashTable.pow_succ_mul] at hhigh
  split at hfit
  · next hroom =>
    have hlt : k < j := by
      by_contra hjk
      obtain rfl : k = j := by omega
      omega
    have hpow' := HashTable.pow_mul_le b hlt
    rw [HashTable.pow_succ_mul] at hpow'
    omega
  · omega

/-- The products have room exactly as long as the number of pairs is below the
capacity whenever one is inserted. -/
theorem fits_iff_below {b : Nat} (hb : 0 < b) (ops : List (Op V)) :
    (AtInserts (Spec.init b) ops fun s => 3 * s.grown ≤ INT_MAX) ↔
      AtInserts (Spec.init b) ops fun s => s.bindings.keys.card < capacity b := by
  by_cases hstart : 3 * b ≤ INT_MAX
  · obtain ⟨k, hcap, hlow, hhigh⟩ := capacity_spec hb hstart
    rw [hcap]
    constructor
    · intro h calls kv hcalls
      have hfit := h calls kv hcalls
      have hle := card_le (V := V) hb calls
      obtain ⟨j, hj⟩ := numBuckets_pow (V := V) b calls
      simp only [Spec.grown] at hfit
      rw [hj] at hfit hle
      exact card_lt_of_fits hb hhigh hle hfit
    · intro h calls kv hcalls
      have hnext := numBuckets_le h (calls ++ [.insert kv]) hcalls
      rw [specRun_append_fst] at hnext
      have hgrown : (specRun Spec.step (Spec.init b : Spec V) calls).1.grown ≤ b * 9 ^ k := hnext
      omega
  · have hcap : capacity b = 0 := if_neg hstart
    rw [hcap]
    constructor
    · intro h calls kv hcalls
      have hfit := h calls kv hcalls
      obtain ⟨j, hj⟩ := numBuckets_pow (V := V) b calls
      have hpow := HashTable.pow_mul_le b (Nat.zero_le j)
      simp only [Spec.grown] at hfit
      rw [hj] at hfit
      split at hfit <;> omega
    · intro h calls kv hcalls
      exact absurd (h calls kv hcalls) (Nat.not_lt_zero _)

theorem resizeExact {t t' : HashTable V} {kv : HTKeyValue V} {old : Option (HTKeyValue V)} (hl : t.Loaded)
    (h : t.insert kv = .ok (t', old)) : ResizeExact t t' := by
  have hfit := HashTable.fits_of_insert h
  have hpos := t.pos
  obtain ⟨t₁, h₁, _, hb, _⟩ := HashTable.insert_spec hl hfit kv
  obtain rfl : t₁ = t' := by rw [h₁] at h; cases h; rfl
  rw [HashTable.nextNumBuckets] at hfit hb
  constructor
  · split at hfit <;> omega
  · intro hroom
    rw [hb, if_pos hroom]
  · intro hfull
    rw [if_neg (by omega)] at hfit hb
    omega

theorem arithmetic_in_range_iff (n : Int) (hn : 0 < n) (ops : List (Op V)) :
    ArithmeticInRange n ops ↔
      AtInserts (Spec.init n.toNat) ops fun s => s.bindings.keys.card < capacity n.toNat := by
  obtain ⟨t₀, halloc, hR⟩ := allocate_represents (V := V) hn
  have hrunFrom (calls : List (Op V)) : runFrom n calls = run step t₀ calls := by
    rw [runFrom, halloc]
    rfl
  rw [← fits_iff_below (by omega)]
  constructor
  · rintro ⟨⟨r, hr⟩, _⟩
    rw [hrunFrom] at hr
    exact fits_of_run ops hR hr
  · intro hfit
    constructor
    · obtain ⟨t, outs, hrun, _⟩ := run_represents ops hR hfit
      exact ⟨(t, outs), by rw [hrunFrom, hrun]⟩
    · intro calls kv hcalls
      obtain ⟨t, outs, hrun, hRt⟩ := run_represents calls hR fun before kv' hbefore =>
        hfit before kv' (hbefore.trans (calls_of_snoc hcalls))
      have hfit' := hfit calls kv hcalls
      have hnext := hRt.nextNumBuckets kv
      obtain ⟨t', hins, _, _, _⟩ := HashTable.insert_spec hRt.loaded (by rw [hnext]; exact hfit') kv
      exact ⟨t, outs, t', _, by rw [hrunFrom, hrun], hins, resizeExact hRt.loaded hins⟩

theorem arithmetic_in_range_iff_one : (0 : Int) < 1 ∧ ArithmeticInRange 1 [.insert ⟨7, 'a'⟩, .remove 7] := by
  refine ⟨by decide, (arithmetic_in_range_iff 1 (by decide) _).mpr ?_⟩
  simp only [atInserts_cons]
  refine ⟨fun _ _ => ?_, fun kv hop => ?_, fun calls kv hcalls => ?_⟩
  · have hcap : capacity 1 = 1162261467 := by decide +kernel
    exact hcap ▸ (by decide)
  · cases hop
  · simp at hcalls

/-- Three times the first bucket count can already be too large. -/
theorem arithmetic_not_in_range :
    ¬∀ n : Int, 0 < n → n ≤ INT_MAX → ∀ ops : List (Op Char), ArithmeticInRange n ops := by
  intro h
  obtain ⟨⟨r, hr⟩, _⟩ := h (2 ^ 30) (by decide) (by decide) [.insert ⟨7, 'a'⟩]
  obtain ⟨t, halloc, hR⟩ := allocate_represents (V := Char) (show (0 : Int) < 2 ^ 30 by decide)
  rw [runFrom, halloc] at hr
  have hfit := fits_of_run [.insert ⟨7, 'a'⟩] hR hr [] ⟨7, 'a'⟩ List.prefix_rfl
  exact absurd hfit (by decide)

end SearchEngine.TableMap
