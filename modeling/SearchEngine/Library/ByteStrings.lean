import Mathlib.Data.Finset.Card
import Mathlib.Algebra.BigOperators.Group.List.Basic
import Mathlib.Algebra.GroupWithZero.Nat

namespace SearchEngine.ByteStrings

/-- A byte string as a number to the base 257, its bytes shifted to be positive. -/
def encode : List UInt8 → Nat
  | [] => 0
  | b :: bs => b.toNat + 1 + 257 * encode bs

theorem encode_injective : Function.Injective encode := by
  intro as bs h
  induction as generalizing bs with
  | nil =>
      cases bs with
      | nil => rfl
      | cons b bs =>
          simp only [encode] at h
          omega
  | cons a as ih =>
      cases bs with
      | nil =>
          simp only [encode] at h
          omega
      | cons b bs =>
          have ha := a.toNat_lt
          have hb := b.toNat_lt
          simp only [encode] at h
          have hhead : a = b := UInt8.toNat.inj (by omega)
          rw [hhead, ih (show encode as = encode bs by omega)]

theorem encode_lt (bs : List UInt8) : encode bs < 257 ^ bs.length := by
  induction bs with
  | nil => simp [encode]
  | cons b bs ih =>
      have hb := b.toNat_lt
      simp only [encode, List.length_cons, Nat.pow_succ]
      omega

theorem card_short {k : Nat} {ws : Finset (List UInt8)} (h : ∀ w ∈ ws, w.length ≤ k) : ws.card ≤ 257 ^ k := by
  have hle := Finset.card_le_card_of_injOn (t := Finset.range (257 ^ k)) encode (by
    intro w hw
    rw [Finset.mem_coe, Finset.mem_range]
    exact Nat.lt_of_lt_of_le (encode_lt w) (Nat.pow_le_pow_right (by decide) (h w hw)))
    encode_injective.injOn
  rwa [Finset.card_range] at hle

theorem card_concat (ws : List (List UInt8)) (w : List UInt8) :
    (ws ++ [w]).toFinset.card = if w ∈ ws then ws.toFinset.card else ws.toFinset.card + 1 := by
  rw [List.toFinset_append, Finset.union_comm]
  change (insert w ws.toFinset).card = _
  simp only [Finset.card_insert_eq_ite, List.mem_toFinset]

def space (ws : List (List UInt8)) : Nat := (ws.map fun w => w.length + 1).sum

theorem length_long (k : Nat) (ws : List (List UInt8)) :
    (k + 2) * (ws.filter fun w => k < w.length).length ≤ space ws := by
  unfold space
  induction ws with
  | nil => simp
  | cons w ws ih =>
      by_cases hw : k < w.length
      · simp only [List.filter_cons, hw, decide_true, if_true, List.length_cons, List.map_cons, List.sum_cons]
        rw [Nat.mul_succ]
        omega
      · simp only [List.filter_cons, hw, decide_false, List.map_cons, List.sum_cons]
        simp only [Bool.false_eq_true, if_false]
        omega

/-- Distinct byte strings take space: all but the short ones are long. -/
theorem card_le (k : Nat) (ws : List (List UInt8)) :
    (k + 2) * ws.toFinset.card ≤ space ws + (k + 2) * 257 ^ k := by
  have hsplit := Finset.card_filter_add_card_filter_not (s := ws.toFinset) fun w => k < w.length
  have hshort : (ws.toFinset.filter fun w => ¬k < w.length).card ≤ 257 ^ k := by
    apply card_short
    intro w hw
    exact Nat.le_of_not_lt (Finset.mem_filter.mp hw).2
  have hlong : (ws.toFinset.filter fun w => k < w.length).card ≤ (ws.filter fun w => k < w.length).length := by
    have hle := List.toFinset_card_le (ws.filter fun w => k < w.length)
    rw [List.toFinset_filter] at hle
    simpa using hle
  have hspace := length_long k ws
  have hmul := Nat.mul_le_mul_left (k + 2) (Nat.add_le_add hlong hshort)
  rw [hsplit, Nat.mul_add] at hmul
  omega

end SearchEngine.ByteStrings
