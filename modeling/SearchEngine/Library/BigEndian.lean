import Mathlib.Algebra.Order.Group.Nat

namespace SearchEngine.BigEndian

/-- The low bytes of a number, most significant first. -/
def bytes : Nat → Nat → List UInt8
  | 0, _ => []
  | w + 1, n => bytes w (n / 256) ++ [UInt8.ofNat n]

def value (bs : List UInt8) : Nat := bs.foldl (fun n b => 256 * n + b.toNat) 0

@[simp]
theorem length_bytes (w n : Nat) : (bytes w n).length = w := by
  induction w generalizing n with
  | zero => rfl
  | succ w ih => simp [bytes, ih]

theorem value_concat (bs : List UInt8) (b : UInt8) : value (bs ++ [b]) = 256 * value bs + b.toNat := by
  simp [value]

theorem value_bytes (w n : Nat) : value (bytes w n) = n % 256 ^ w := by
  induction w generalizing n with
  | zero => simp [bytes, value, Nat.mod_one]
  | succ w ih =>
      rw [bytes, value_concat, ih, Nat.pow_succ', Nat.mod_mul, UInt8.toNat_ofNat']
      omega

theorem value_bytes_of_lt {w n : Nat} (h : n < 256 ^ w) : value (bytes w n) = n := by
  rw [value_bytes, Nat.mod_eq_of_lt h]

def field (w : Nat) (x : Int) : List UInt8 := bytes w (x % (256 ^ w : Nat)).toNat

def signed (bs : List UInt8) : Int := (value bs : Int).bmod (256 ^ bs.length)

@[simp]
theorem length_field (w : Nat) (x : Int) : (field w x).length = w := length_bytes w _

theorem signed_field (w : Nat) (x : Int) : signed (field w x) = x.bmod (256 ^ w) := by
  have hpos : (0 : Int) < (256 ^ w : Nat) := by exact_mod_cast Nat.pow_pos (by decide)
  have hlt := Int.emod_lt_of_pos x hpos
  have hnonneg := Int.emod_nonneg x (Int.ne_of_gt hpos)
  rw [signed, field, length_bytes, value_bytes_of_lt (by omega), Int.toNat_of_nonneg hnonneg, Int.emod_bmod]

theorem signed_two_le {bs : List UInt8} (h : bs.length = 2) : signed bs ≤ 32767 := by
  have hlt := Int.bmod_lt (x := (value bs : Int)) (m := 256 ^ 2) (by decide)
  rw [signed, h]
  omega

end SearchEngine.BigEndian
