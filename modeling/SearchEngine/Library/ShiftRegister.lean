import Mathlib.Data.Nat.Bitwise

namespace SearchEngine

/-- A test for duplicates in one pass. The bits of the mask are the numbers
seen so far. -/
def distinctFrom : Nat → List Nat → Bool
  | _, [] => true
  | mask, n :: ns => !mask.testBit n && distinctFrom (mask ||| 1 <<< n) ns

theorem nodup_of_distinctFrom {mask : Nat} {ns : List Nat} (h : distinctFrom mask ns = true) :
    ns.Nodup ∧ ∀ n ∈ ns, mask.testBit n = false := by
  induction ns generalizing mask with
  | nil => simp
  | cons n ns ih =>
      simp only [distinctFrom, Bool.and_eq_true, Bool.not_eq_true'] at h
      obtain ⟨hnodup, hunseen⟩ := ih h.2
      constructor
      · rw [List.nodup_cons]
        refine ⟨?_, hnodup⟩
        intro hmem
        have hbit := hunseen n hmem
        simp [Nat.testBit_or, Nat.testBit_shiftLeft] at hbit
      · intro m hm
        rcases List.mem_cons.mp hm with rfl | hm
        · exact h.1
        · have hbit := hunseen m hm
          rw [Nat.testBit_or, Bool.or_eq_false_iff] at hbit
          exact hbit.1

/-- The table of a register that takes in a byte at a time, of one byte more
than the number given. An entry is known by its highest byte. -/
structure ShiftTable (w : Nat) where
  entry : Nat → Nat
  entry_lt : ∀ i < 256, entry i < 2 ^ (8 * w + 8)
  top_inj : ∀ i < 256, ∀ j < 256, entry i >>> (8 * w) = entry j >>> (8 * w) → i = j

namespace ShiftTable

variable {w : Nat} (T : ShiftTable w)

def index (s : Nat) (b : UInt8) : Nat := (s &&& 0xFF) ^^^ b.toNat

def step (s : Nat) (b : UInt8) : Nat := (s >>> 8) ^^^ T.entry (index s b)

def run (s : Nat) (bs : List UInt8) : Nat := bs.foldl T.step s

theorem index_lt (s : Nat) (b : UInt8) : index s b < 256 := by
  have hlow : s &&& 0xFF < 2 ^ 8 := Nat.lt_of_le_of_lt Nat.and_le_right (by decide)
  exact Nat.xor_lt_two_pow hlow b.toNat_lt

theorem step_lt {s : Nat} (hs : s < 2 ^ (8 * w + 8)) (b : UInt8) : T.step s b < 2 ^ (8 * w + 8) := by
  apply Nat.xor_lt_two_pow
  · exact Nat.lt_of_le_of_lt (Nat.shiftRight_le s 8) hs
  · exact T.entry_lt _ (index_lt s b)

theorem run_lt {s : Nat} (hs : s < 2 ^ (8 * w + 8)) (bs : List UInt8) : T.run s bs < 2 ^ (8 * w + 8) := by
  induction bs generalizing s with
  | nil => exact hs
  | cons b bs ih => exact ih (T.step_lt hs b)

theorem run_append (s : Nat) (xs ys : List UInt8) : T.run s (xs ++ ys) = T.run (T.run s xs) ys :=
  List.foldl_append

/-- The high part of a state after a step tells which entry was used, and the
part of the state before that is one byte higher. -/
theorem step_high {s t k : Nat} {u v : UInt8} (hs : s < 2 ^ (8 * w + 8)) (ht : t < 2 ^ (8 * w + 8)) (hk : k ≤ w)
    (h : T.step s u >>> (8 * k) = T.step t v >>> (8 * k)) :
    index s u = index t v ∧ s >>> (8 * (k + 1)) = t >>> (8 * (k + 1)) := by
  have hshift (r : Nat) (b : UInt8) (m : Nat) :
      T.step r b >>> m = r >>> (8 + m) ^^^ T.entry (index r b) >>> m := by
    rw [step, Nat.shiftRight_xor_distrib, ← Nat.shiftRight_add]
  have htop (r : Nat) (hr : r < 2 ^ (8 * w + 8)) (b : UInt8) :
      (T.step r b >>> (8 * k)) >>> (8 * (w - k)) = T.entry (index r b) >>> (8 * w) := by
    have hzero : r >>> (8 + 8 * w) = 0 := by
      rw [Nat.shiftRight_eq_div_pow, Nat.add_comm]
      exact Nat.div_eq_of_lt hr
    rw [← Nat.shiftRight_add, show 8 * k + 8 * (w - k) = 8 * w by omega, hshift, hzero, Nat.zero_xor]
  have hindex : index s u = index t v := by
    apply T.top_inj _ (index_lt s u) _ (index_lt t v)
    rw [← htop s hs u, ← htop t ht v, h]
  refine ⟨hindex, ?_⟩
  rw [hshift, hshift, hindex] at h
  rw [show 8 * (k + 1) = 8 + 8 * k by omega]
  exact Nat.xor_left_injective h

theorem step_inj {s t : Nat} {b : UInt8} (hs : s < 2 ^ (8 * w + 8)) (ht : t < 2 ^ (8 * w + 8))
    (h : T.step s b = T.step t b) : s = t := by
  obtain ⟨hindex, hhigh⟩ := T.step_high hs ht (Nat.zero_le w) (by simpa using h)
  have hlow : s &&& 0xFF = t &&& 0xFF := Nat.xor_left_injective hindex
  have hmod (n : Nat) : n &&& 0xFF = n % 2 ^ 8 := Nat.and_two_pow_sub_one_eq_mod n 8
  rw [hmod, hmod] at hlow
  rw [Nat.zero_add, Nat.mul_one, Nat.shiftRight_eq_div_pow, Nat.shiftRight_eq_div_pow] at hhigh
  omega

theorem run_inj {s t : Nat} (hs : s < 2 ^ (8 * w + 8)) (ht : t < 2 ^ (8 * w + 8)) {bs : List UInt8}
    (h : T.run s bs = T.run t bs) : s = t := by
  induction bs generalizing s t with
  | nil => exact h
  | cons b bs ih => exact T.step_inj hs ht (ih (T.step_lt hs b) (T.step_lt ht b) h)

theorem run_high {us vs : List UInt8} (hlen : us.length = vs.length) {s t k : Nat} (hs : s < 2 ^ (8 * w + 8))
    (ht : t < 2 ^ (8 * w + 8)) (hk : us.length + k ≤ w + 1)
    (h : T.run s us >>> (8 * k) = T.run t vs >>> (8 * k)) :
    s >>> (8 * (us.length + k)) = t >>> (8 * (us.length + k)) ∧ (s = t → us = vs) := by
  induction us generalizing vs s t with
  | nil =>
      obtain rfl := List.eq_nil_of_length_eq_zero hlen.symm
      refine ⟨?_, fun _ => rfl⟩
      rw [List.length_nil, Nat.zero_add]
      exact h
  | cons u us ih =>
      obtain _ | ⟨v, vs⟩ := vs
      · cases hlen
      rw [List.length_cons] at hk
      obtain ⟨hhigh, hsame⟩ := ih (by simpa using hlen) (T.step_lt hs u) (T.step_lt ht v) (by omega) h
      obtain ⟨hindex, hbefore⟩ := T.step_high hs ht (by omega) hhigh
      constructor
      · rw [List.length_cons, show us.length + 1 + k = us.length + k + 1 by omega]
        exact hbefore
      · rintro rfl
        have hbyte : u = v := by
          apply UInt8.toNat_inj.mp
          exact Nat.xor_right_injective hindex
        rw [hbyte] at hsame ⊢
        rw [hsame rfl]

/-- No burst that fits into the register goes unnoticed. -/
theorem run_burst {s : Nat} (hs : s < 2 ^ (8 * w + 8)) (pre post : List UInt8) {us vs : List UInt8}
    (hlen : us.length = vs.length) (hburst : us.length ≤ w + 1)
    (h : T.run s (pre ++ (us ++ post)) = T.run s (pre ++ (vs ++ post))) : us = vs := by
  simp only [T.run_append] at h
  have hstart := T.run_lt hs pre
  have hmid := T.run_inj (T.run_lt hstart us) (T.run_lt hstart vs) h
  exact (T.run_high hlen hstart hstart (k := 0) (by omega) (by rw [hmid])).2 rfl

end ShiftTable

end SearchEngine
