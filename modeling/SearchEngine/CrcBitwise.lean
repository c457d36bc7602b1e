import SearchEngine.Crc32
import SearchEngine.Library.BitSerial

namespace SearchEngine.CRC32

open BitSerial

/-- The bits of a byte as they come in, the lowest first. -/
def bitsOf (b : UInt8) : List Bool := (List.range 8).map b.toBitVec.getLsbD

/-- The reflected CRC-32 by its definition: a division, one bit at a time,
whose remainder is reversed and complemented. -/
def bitwise (bs : Bytes) : UInt32 :=
  ⟨~~~(run 0x04C11DB7#32 (BitVec.allOnes 32) (bs.flatMap bitsOf)).reverse⟩

/-- The results of successive calls of GetFinalCRC. -/
def finalCRCs : Nat → CRC32 → List UInt32
  | 0, _ => []
  | n + 1, crc => crc.getFinalCRC.1 :: finalCRCs n crc.getFinalCRC.2

/-- One round of the loop of CRC32Reflect. -/
def reflectStep (c : Nat) (s : UInt32 × UInt32) (position : Nat) : UInt32 × UInt32 :=
  (if s.2 &&& 1 = 1 then s.1 ||| (1 <<< UInt32.ofNat (c - position)) else s.1, s.2 >>> 1)

theorem crc32Reflect_eq (x : UInt32) (c : Nat) :
    crc32Reflect x c = ((List.range' 1 c).foldl (reflectStep c) (0, x)).1 := rfl

theorem and_one (x : UInt32) : x &&& 1 = 1 ↔ x.toBitVec.getLsbD 0 = true := by
  rw [← UInt32.toBitVec_inj, UInt32.toBitVec_and]
  have h : x.toBitVec &&& UInt32.toBitVec 1 = BitVec.setWidth 32 (BitVec.ofBool (x.toBitVec.getLsbD 0)) :=
    BitVec.and_one_eq_setWidth_ofBool_getLsbD
  rw [h]
  cases x.toBitVec.getLsbD 0 <;> decide

theorem one_shiftLeft {n : Nat} (hn : n < 32) : ((1 : UInt32) <<< UInt32.ofNat n).toBitVec = BitVec.twoPow 32 n := by
  have hmod : (UInt32.ofNat n % 32).toNat = n := by
    rw [UInt32.toNat_mod, UInt32.toNat_ofNat_of_lt' (Nat.lt_of_lt_of_le hn (by decide))]
    exact Nat.mod_eq_of_lt hn
  rw [BitVec.twoPow_eq]
  change 1#32 <<< (UInt32.ofNat n % 32).toNat = _
  rw [hmod]

/-- After the first positions, so many of the low bits have moved to the other
end. -/
theorem reflectStep_spec {c : Nat} (hc : c ≤ 32) (x : UInt32) {k : Nat} (hk : k ≤ c) :
    ((List.range' 1 k).foldl (reflectStep c) (0, x)).2.toBitVec = x.toBitVec >>> k ∧
    ∀ i, ((List.range' 1 k).foldl (reflectStep c) (0, x)).1.toBitVec.getLsbD i =
      (decide (c - k ≤ i ∧ i < c) && x.toBitVec.getLsbD (c - 1 - i)) := by
  induction k with
  | zero =>
      refine ⟨(BitVec.ushiftRight_zero _).symm, fun i => ?_⟩
      rw [decide_eq_false (by omega), Bool.false_and]
      exact BitVec.getLsbD_zero
  | succ k ih =>
      obtain ⟨hrest, hval⟩ := ih (Nat.le_of_succ_le hk)
      rw [List.range'_1_concat, List.foldl_concat]
      generalize (List.range' 1 k).foldl (reflectStep c) (0, x) = s at hrest hval
      have hplace : (1 <<< UInt32.ofNat (c - (1 + k)) : UInt32).toBitVec.getLsbD =
          fun i => decide (i = c - (1 + k)) := by
        funext i
        rw [one_shiftLeft (by omega), BitVec.getLsbD_twoPow]
        by_cases h : i = c - (1 + k)
        · simp [h, show c - (1 + k) < 32 by omega]
        · simp [h, Ne.symm h]
      constructor
      · change s.2.toBitVec >>> 1 = _
        rw [hrest, ← BitVec.shiftRight_add]
      · intro i
        have hbit : s.2 &&& 1 = 1 ↔ x.toBitVec.getLsbD k = true := by
          rw [and_one, hrest, BitVec.getLsbD_ushiftRight, Nat.add_zero]
        have hstep : (reflectStep c s (1 + k)).1.toBitVec.getLsbD i =
            (s.1.toBitVec.getLsbD i || (x.toBitVec.getLsbD k && decide (i = c - (1 + k)))) := by
          unfold reflectStep
          by_cases h : x.toBitVec.getLsbD k = true
          · rw [if_pos (hbit.mpr h), UInt32.toBitVec_or, BitVec.getLsbD_or, hplace, h, Bool.true_and]
          · rw [if_neg (mt hbit.mp h), Bool.eq_false_of_not_eq_true h, Bool.false_and, Bool.or_false]
        rw [hstep, hval]
        by_cases hi : i = c - (1 + k)
        · have hk' : c - 1 - i = k := by omega
          have hbefore : ¬(c - k ≤ i ∧ i < c) := by omega
          have hafter : c - (k + 1) ≤ i ∧ i < c := by omega
          rw [hk', decide_eq_true hi, decide_eq_false hbefore, decide_eq_true hafter]
          simp
        · rw [decide_eq_false hi, Bool.and_false, Bool.or_false]
          congr 2
          apply propext
          omega

theorem getLsbD_crc32Reflect {c : Nat} (hc : c ≤ 32) (x : UInt32) (i : Nat) :
    (crc32Reflect x c).toBitVec.getLsbD i = (decide (i < c) && x.toBitVec.getLsbD (c - 1 - i)) := by
  rw [crc32Reflect_eq, (reflectStep_spec hc x (Nat.le_refl c)).2, Nat.sub_self]
  simp

theorem getLsbD_small {code : UInt32} (hcode : code < 256) {i : Nat} (hi : 8 ≤ i) :
    code.toBitVec.getLsbD i = false := by
  apply Nat.testBit_lt_two_pow
  exact Nat.lt_of_lt_of_le (UInt32.lt_iff_toNat_lt.mp hcode) (Nat.pow_le_pow_right (n := 2) (by decide) hi)

theorem crc32Reflect_word (x : UInt32) : (crc32Reflect x 32).toBitVec = x.toBitVec.reverse := by
  apply BitVec.eq_of_getLsbD_eq
  intro i hi
  rw [getLsbD_crc32Reflect (Nat.le_refl 32), BitVec.getLsbD_reverse, BitVec.getMsbD]

theorem crc32Reflect_byte {code : UInt32} (hcode : code < 256) :
    (crc32Reflect code 8 <<< 24).toBitVec = code.toBitVec.reverse := by
  apply BitVec.eq_of_getLsbD_eq
  intro i hi
  rw [BitVec.getLsbD_reverse, BitVec.getMsbD, decide_eq_true hi, Bool.true_and]
  change ((crc32Reflect code 8).toBitVec <<< 24).getLsbD i = _
  rw [BitVec.getLsbD_shiftLeft, getLsbD_crc32Reflect (by decide), decide_eq_true hi, Bool.true_and]
  by_cases hlow : i < 24
  · rw [getLsbD_small hcode (show 8 ≤ 32 - 1 - i by omega)]
    simp [hlow]
  · rw [decide_eq_false hlow, decide_eq_true (by omega), show 8 - 1 - (i - 24) = 32 - 1 - i by omega]
    rfl

theorem shiftRound_eq (entry : UInt32) :
    ((entry <<< 1) ^^^ (if entry &&& (1 : UInt32) <<< 31 ≠ 0 then kPolynomial else 0)).toBitVec =
      step 0x04C11DB7#32 entry.toBitVec false := by
  have htop : entry &&& (1 : UInt32) <<< 31 ≠ 0 ↔ entry.toBitVec.msb = true := by
    rw [ne_eq, ← UInt32.toBitVec_inj, UInt32.toBitVec_and]
    change ¬entry.toBitVec &&& ((1 : UInt32) <<< UInt32.ofNat 31).toBitVec = 0#32 ↔ _
    rw [one_shiftLeft (by decide), BitVec.and_twoPow, BitVec.msb_eq_getLsbD_last]
    cases entry.toBitVec.getLsbD (32 - 1) <;> decide
  rw [UInt32.toBitVec_xor, step, Bool.xor_false]
  congr 1
  by_cases h : entry.toBitVec.msb = true
  · rw [if_pos (htop.mpr h), if_pos h]
    rfl
  · rw [if_neg (mt htop.mp h), if_neg h]
    rfl

theorem shiftRounds_eq (positions : List Nat) (entry : UInt32) :
    (positions.foldl (fun (entry : UInt32) _ =>
      (entry <<< 1) ^^^ (if entry &&& (1 : UInt32) <<< 31 ≠ 0 then kPolynomial else 0)) entry).toBitVec =
      shifts 0x04C11DB7#32 positions.length entry.toBitVec := by
  induction positions generalizing entry with
  | nil => rfl
  | cons position positions ih => rw [List.foldl_cons, ih, shiftRound_eq, List.length_cons, shifts]

/-- An entry of the table is the reversed remainder of a reversed code. -/
theorem tableEntry_eq {code : UInt32} (hcode : code < 256) :
    (tableEntry code).toBitVec = (shifts 0x04C11DB7#32 8 code.toBitVec.reverse).reverse := by
  rw [tableEntry, crc32Reflect_word, shiftRounds_eq, crc32Reflect_byte hcode, List.length_range]

theorem table_getD {i : Nat} (hi : i < 256) : table.getD i 0 = tableEntry (UInt32.ofNat i) := by
  unfold table
  rw [List.getD_eq_getElem _ _ (by simpa using hi)]
  simp

theorem getLsbD_lowByte (i : Nat) : (0xFF#32).getLsbD i = decide (i < 8) := by
  rw [BitVec.getLsbD_ofNat, show 0xFF = 2 ^ 8 - 1 by rfl, Nat.testBit_two_pow_sub_one, ← Bool.decide_and]
  apply decide_eq_decide.mpr
  omega

theorem split_lowByte (s d : BitVec 32) : s ^^^ d = ((s &&& 0xFF#32) ^^^ d) ^^^ (s &&& ~~~0xFF#32) := by
  apply BitVec.eq_of_getLsbD_eq
  intro i hi
  simp only [BitVec.getLsbD_xor, BitVec.getLsbD_and, BitVec.getLsbD_not, getLsbD_lowByte, decide_eq_true hi,
    Bool.true_and]
  by_cases hlow : i < 8 <;> simp [hlow, Bool.xor_comm]

theorem highBytes_clear (s : BitVec 32) {i : Nat} (hi : i < 8) :
    (s &&& ~~~0xFF#32).reverse.getMsbD i = false := by
  rw [BitVec.getMsbD_reverse, BitVec.getLsbD_and, BitVec.getLsbD_not, getLsbD_lowByte, decide_eq_true hi]
  simp

theorem highBytes_shift (s : BitVec 32) : ((s &&& ~~~0xFF#32).reverse <<< 8).reverse = s >>> 8 := by
  apply BitVec.eq_of_getLsbD_eq
  intro i _
  rw [BitVec.getLsbD_reverse, BitVec.getMsbD_shiftLeft, BitVec.getMsbD_reverse, BitVec.getLsbD_and,
    BitVec.getLsbD_not, getLsbD_lowByte, BitVec.getLsbD_ushiftRight, Nat.add_comm i 8]
  by_cases hin : 8 + i < 32
  · simp [hin]
  · simp [BitVec.getLsbD_of_ge s (8 + i) (Nat.le_of_not_lt hin)]

/-- One byte through the table is eight bits through the register. -/
theorem crcState_step (r : BitVec 32) (crcState : UInt32) (h : crcState.toBitVec = r.reverse) (b : UInt8) :
    ((crcState >>> 8) ^^^ table.getD ((crcState &&& 0xFF) ^^^ b.toUInt32).toNat 0).toBitVec =
      (run 0x04C11DB7#32 r (bitsOf b)).reverse := by
  have hbyte : b.toUInt32 < 256 := UInt32.lt_iff_toNat_lt.mpr (by simpa using b.toNat_lt)
  have hindex : (crcState &&& 0xFF) ^^^ b.toUInt32 < 256 := by
    rw [UInt32.lt_iff_toNat_lt, UInt32.toNat_xor, UInt32.toNat_and]
    exact Nat.xor_lt_two_pow (n := 8) (Nat.lt_of_le_of_lt Nat.and_le_right (by decide)) b.toNat_lt
  have hbits : bitsOf b = (List.range 8).map b.toUInt32.toBitVec.reverse.getMsbD := by
    apply List.map_congr_left
    intro i _
    rw [BitVec.getMsbD_reverse]
    rfl
  have hlate (i : Nat) (hi : 8 ≤ i) : b.toUInt32.toBitVec.reverse.getMsbD i = false := by
    rw [BitVec.getMsbD_reverse]
    exact getLsbD_small hbyte hi
  have hsplit : r ^^^ b.toUInt32.toBitVec.reverse =
      ((crcState &&& 0xFF) ^^^ b.toUInt32).toBitVec.reverse ^^^ (crcState.toBitVec &&& ~~~0xFF#32).reverse := by
    rw [← BitVec.reverse_reverse_eq (x := r), ← h, ← reverse_xor, ← reverse_xor, split_lowByte]
    rfl
  rw [hbits, run_split _ r hlate hsplit fun i hi => highBytes_clear _ hi, reverse_xor, highBytes_shift,
    UInt32.toBitVec_xor, table_getD (UInt32.lt_iff_toNat_lt.mp hindex), UInt32.ofNat_toNat, tableEntry_eq hindex,
    BitVec.xor_comm]
  rfl

theorem foldBytes_bitwise (bs : Bytes) (r : BitVec 32) (crc : CRC32) (hopen : crc.finalized = false)
    (h : crc.crcState.toBitVec = r.reverse) :
    ∃ crc', crc.foldBytes bs = .ok crc' ∧ crc'.finalized = false ∧
      crc'.crcState.toBitVec = (run 0x04C11DB7#32 r (bs.flatMap bitsOf)).reverse := by
  induction bs generalizing r crc with
  | nil => exact ⟨crc, rfl, hopen, h⟩
  | cons b bs ih =>
      have hbyte := crcState_step r crc.crcState h b
      obtain ⟨crc', hfold, hopen', hstate⟩ := ih _ { crc with
        crcState := (crc.crcState >>> 8) ^^^ table.getD ((crc.crcState &&& 0xFF) ^^^ b.toUInt32).toNat 0 } hopen hbyte
      refine ⟨crc', ?_, hopen', ?_⟩
      · simpa [foldBytes, foldByteIntoCRC, hopen] using hfold
      · rw [hstate, List.flatMap_cons, run_append]

theorem finalCRCs_finalized (crc : CRC32) (h : crc.finalized = true) (n : Nat) :
    finalCRCs n crc = List.replicate n crc.crcState := by
  induction n with
  | zero => rfl
  | succ n ih =>
      rw [finalCRCs, getFinalCRC, if_pos h, ih]
      rfl

theorem finalCRCs_open (crc : CRC32) (h : crc.finalized = false) (n : Nat) :
    finalCRCs n crc = List.replicate n (crc.crcState ^^^ 0xffffffff) := by
  cases n with
  | zero => rfl
  | succ n =>
      rw [finalCRCs, getFinalCRC, if_neg (by simp [h]), finalCRCs_finalized _ rfl]
      rfl

/-- The checksum by the table is the checksum by the definition. -/
theorem finalCRCs_bitwise (bs : Bytes) :
    ∃ crc, new.foldBytes bs = .ok crc ∧ ∀ n, finalCRCs n crc = List.replicate n (bitwise bs) := by
  obtain ⟨crc, hfold, hopen, hstate⟩ := foldBytes_bitwise bs (BitVec.allOnes 32) new rfl (by decide +kernel)
  refine ⟨crc, hfold, fun n => ?_⟩
  have hsum : crc.crcState ^^^ 0xffffffff = bitwise bs := by
    rw [← UInt32.toBitVec_inj, UInt32.toBitVec_xor, hstate]
    exact BitVec.xor_allOnes
  rw [finalCRCs_open crc hopen, hsum]

example : bitwise [1, 2, 3, 4] = 0xB63CFBCD := by decide +kernel

end SearchEngine.CRC32
