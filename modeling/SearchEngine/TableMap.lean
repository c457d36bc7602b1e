import SearchEngine.Resize
import SearchEngine.Library.Simulation
import Mathlib.Data.Finmap

namespace SearchEngine.TableMap

open Simulation

variable {V : Type}

inductive Op (V : Type)
  | insert (newkeyvalue : HTKeyValue V)
  | find (key : UInt64)
  | remove (key : UInt64)

/-- One call, with the pair it hands back: none is the return value false. -/
def step (t : HashTable V) : Op V → Run (HashTable V × Option (HTKeyValue V))
  | .insert kv => t.insert kv
  | .find key => do
      let kv ← t.find key
      return (t, kv)
  | .remove key => t.remove key

/-- What a HashTable is for: a finite map from keys to values. The bucket
count follows the load rule of HashTable.h. -/
structure Spec (V : Type) where
  bindings : Finmap fun _ : UInt64 => V
  numBuckets : Nat

namespace Spec

def init (numBuckets : Nat) : Spec V := ⟨∅, numBuckets⟩

def pair (s : Spec V) (key : UInt64) : Option (HTKeyValue V) :=
  (s.bindings.lookup key).map (HTKeyValue.mk key)

def step (s : Spec V) : Op V → Spec V × Option (HTKeyValue V)
  | .insert kv =>
      (⟨s.bindings.insert kv.key kv.value,
        if s.bindings.keys.card < 3 * s.numBuckets then s.numBuckets else 9 * s.numBuckets⟩,
        s.pair kv.key)
  | .find key => (s, s.pair key)
  | .remove key => (⟨s.bindings.erase key, s.numBuckets⟩, s.pair key)

end Spec

structure Represents (t : HashTable V) (s : Spec V) : Prop where
  lookup : ∀ key, t.lookup key = s.bindings.lookup key
  numBuckets : t.numBuckets = s.numBuckets
  loaded : t.Loaded

theorem Represents.numElements {t : HashTable V} {s : Spec V} (h : Represents t s) :
    t.numElements = s.bindings.keys.card := by
  have hk : s.bindings.keys = (t.pairs.map HTKeyValue.key).toFinset := by
    ext key
    rw [Finmap.mem_keys, ← Finmap.lookup_isSome, ← h.lookup, List.mem_toFinset, List.mem_map,
      Option.isSome_iff_exists]
    constructor
    · rintro ⟨value, hv⟩
      exact ⟨⟨key, value⟩, HashTable.mem_pairs.mpr hv, rfl⟩
    · rintro ⟨kv, hkv, rfl⟩
      exact ⟨kv.value, HashTable.mem_pairs.mp hkv⟩
  rw [hk, List.toFinset_card_of_nodup t.nodup_keys, List.length_map, HashTable.length_pairs]

theorem Represents.nextNumBuckets {t : HashTable V} {s : Spec V} (h : Represents t s)
    (kv : HTKeyValue V) : t.nextNumBuckets = (s.step (.insert kv)).1.numBuckets := by
  rw [HashTable.nextNumBuckets, h.numElements, h.numBuckets]
  rfl

/-- Only an insertion can make the bucket count leave int. -/
def InsertFits (s : Spec V) (op : Op V) : Prop :=
  ∀ kv, op = .insert kv → 3 * (s.step op).1.numBuckets ≤ INT_MAX

theorem step_represents (t : HashTable V) (s : Spec V) (op : Op V) (h : Represents t s)
    (hfit : InsertFits s op) :
    ∃ t', step t op = .ok (t', (s.step op).2) ∧ Represents t' (s.step op).1 := by
  cases op with
  | insert kv =>
      have hfit := hfit kv rfl
      rw [← h.nextNumBuckets] at hfit
      obtain ⟨t', hins, hspec, hb, hl⟩ := HashTable.insert_spec h.loaded hfit kv
      refine ⟨t', by rw [step, hins, h.lookup]; rfl, ⟨fun key => ?_, ?_, hl⟩⟩
      · rw [hspec.lookup, h.lookup]
        by_cases hk : key = kv.key
        · rw [if_pos hk, hk]
          exact (Finmap.lookup_insert s.bindings).symm
        · rw [if_neg hk]
          exact (Finmap.lookup_insert_of_ne s.bindings hk).symm
      · rw [hb, h.nextNumBuckets kv]
  | find key => exact ⟨t, by simp [step, h.lookup, Spec.step, Spec.pair], h⟩
  | remove key =>
      obtain ⟨t', hrem, hspec, hb⟩ := HashTable.remove_spec t key
      refine ⟨t', by rw [step, hrem, h.lookup]; rfl,
        ⟨fun key' => ?_, by rw [hb, h.numBuckets]; rfl, hspec.loaded hb h.loaded⟩⟩
      rw [hspec.lookup, h.lookup]
      by_cases hk : key' = key
      · rw [if_pos hk, hk]
        exact (Finmap.lookup_erase key s.bindings).symm
      · rw [if_neg hk]
        exact (Finmap.lookup_erase_ne hk).symm

theorem step_simulates (t : HashTable V) (s : Spec V) (op : Op V) (h : Represents t s)
    (hfit : 3 * (s.step op).1.numBuckets ≤ INT_MAX) :
    ∃ t', step t op = .ok (t', (s.step op).2) ∧ Represents t' (s.step op).1 :=
  step_represents t s op h fun _ _ => hfit

theorem numBuckets_mono (s : Spec V) (op : Op V)
    (h : 3 * (s.step op).1.numBuckets ≤ INT_MAX) : 3 * s.numBuckets ≤ INT_MAX := by
  cases op with
  | insert kv =>
      simp only [Spec.step] at h
      split at h <;> omega
  | find key | remove key => exact h

def runFrom (n : Int) (ops : List (Op V)) : Run (HashTable V × List (Option (HTKeyValue V))) := do
  let t ← HashTable.allocate n
  run step t ops

theorem allocate_represents {n : Int} (hn : 0 < n) :
    ∃ t : HashTable V, HashTable.allocate n = .ok t ∧ Represents t (Spec.init n.toNat) := by
  obtain ⟨t, halloc, hzero, hb⟩ := HashTable.allocate_spec (V := V) hn
  exact ⟨t, halloc, fun key => by rw [HashTable.lookup_of_numElements_zero hzero]; rfl, hb,
    by unfold HashTable.Loaded; omega⟩

/-- The table behaves as a finite map after every call of a run, across every
resize, as long as the bucket counts of the run stay within int. -/
theorem run_refines_map (n : Int) (hn : 0 < n) (ops : List (Op V))
    (hfit : 9 * (specRun Spec.step (Spec.init n.toNat) ops).1.numBuckets ≤ INT_MAX)
    (calls : List (Op V)) (hcalls : calls <+: ops) :
    ∃ t, runFrom n calls = .ok (t, (specRun Spec.step (Spec.init n.toNat) calls).2) ∧
      (∀ key, t.find key = .ok ((specRun Spec.step (Spec.init n.toNat) calls).1.pair key)) ∧
      t.numElements = (specRun Spec.step (Spec.init n.toNat) calls).1.bindings.keys.card ∧
      t.numBuckets = (specRun Spec.step (Spec.init n.toNat) calls).1.numBuckets := by
  obtain ⟨t₀, halloc, hR⟩ := allocate_represents (V := V) hn
  obtain ⟨later, rfl⟩ := hcalls
  rw [specRun_append_fst] at hfit
  have hfit' := bound_of_run (fun s : Spec V => 3 * s.numBuckets ≤ INT_MAX)
    numBuckets_mono later (specRun Spec.step (Spec.init n.toNat) calls).1 (by omega)
  obtain ⟨t, hrun, hRt⟩ := run_simulates (fun s : Spec V => 3 * s.numBuckets ≤ INT_MAX)
    numBuckets_mono step_simulates calls t₀ _ hR hfit'
  refine ⟨t, by rw [runFrom, halloc]; exact hrun, fun key => ?_, hRt.numElements, hRt.numBuckets⟩
  rw [HashTable.find_eq, hRt.lookup]
  rfl

theorem run_refines_map_resizing :
    (0 : Int) < 1 ∧
    9 * (specRun Spec.step (Spec.init (Int.toNat 1))
      [.insert ⟨1, 'a'⟩, .insert ⟨2, 'b'⟩, .insert ⟨3, 'c'⟩, .insert ⟨4, 'd'⟩]).1.numBuckets ≤ INT_MAX ∧
    ∃ t : HashTable Char, runFrom 1
      [.insert ⟨1, 'a'⟩, .insert ⟨2, 'b'⟩, .insert ⟨3, 'c'⟩, .insert ⟨4, 'd'⟩] =
        .ok (t, [none, none, none, none]) ∧ t.numBuckets = 9 := by
  have hfit : 9 * (specRun Spec.step (Spec.init (Int.toNat 1))
      [.insert ⟨1, 'a'⟩, .insert ⟨2, 'b'⟩, .insert ⟨3, 'c'⟩, .insert ⟨4, 'd'⟩]).1.numBuckets ≤
        INT_MAX := by decide
  obtain ⟨t, hrun, _, _, hb⟩ := run_refines_map (V := Char) 1 (by decide) _ hfit _ List.prefix_rfl
  exact ⟨by decide, hfit, t, hrun, hb⟩

end SearchEngine.TableMap
