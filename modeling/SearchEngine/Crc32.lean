import SearchEngine.Run
import SearchEngine.Library.ShiftRegister

namespace SearchEngine

structure CRC32 where
  crcState : UInt32
  finalized : Bool

namespace CRC32

def crc32Reflect (reflectMe : UInt32) (c : Nat) : UInt32 :=
  ((List.range' 1 c).foldl (fun (val, reflectMe) position =>
    (if reflectMe &&& 1 = 1 then val ||| (1 <<< UInt32.ofNat (c - position)) else val, reflectMe >>> 1))
    ((0 : UInt32), reflectMe)).1

def kPolynomial : UInt32 := 0x04C11DB7

def tableEntry (code : UInt32) : UInt32 :=
  crc32Reflect ((List.range 8).foldl (fun entry _ =>
    (entry <<< 1) ^^^ (if entry &&& (1 : UInt32) <<< 31 ≠ 0 then kPolynomial else 0)) (crc32Reflect code 8 <<< 24)) 32

@[irreducible]
def table : List UInt32 := (List.range 256).map fun code => tableEntry (UInt32.ofNat code)

def new : CRC32 := ⟨0xFFFFFFFF, false⟩

def foldByteIntoCRC (crc : CRC32) (nextByte : UInt8) : Run CRC32 := do
  verify333 (crc.finalized ≠ true)
  return { crc with
    crcState := (crc.crcState >>> 8) ^^^ table.getD ((crc.crcState &&& 0xFF) ^^^ nextByte.toUInt32).toNat 0 }

/-- The state is complemented the first time only. -/
def getFinalCRC (crc : CRC32) : UInt32 × CRC32 :=
  if crc.finalized then (crc.crcState, crc)
  else (crc.crcState ^^^ 0xffffffff, ⟨crc.crcState ^^^ 0xffffffff, true⟩)

def foldBytes (crc : CRC32) (bs : Bytes) : Run CRC32 := bs.foldlM foldByteIntoCRC crc

theorem foldBytes_ok (crc : CRC32) (h : crc.finalized = false) (bs : Bytes) :
    ∃ crc', crc.foldBytes bs = .ok crc' ∧ crc'.finalized = false := by
  induction bs generalizing crc with
  | nil => exact ⟨crc, rfl, h⟩
  | cons b bs ih =>
      obtain ⟨crc', hfold, hfin⟩ := ih { crc with
        crcState := (crc.crcState >>> 8) ^^^ table.getD ((crc.crcState &&& 0xFF) ^^^ b.toUInt32).toNat 0 } h
      refine ⟨crc', ?_, hfin⟩
      simpa [foldBytes, foldByteIntoCRC, h] using hfold

theorem foldBytes_append (crc : CRC32) (xs ys : Bytes) :
    crc.foldBytes (xs ++ ys) = (crc.foldBytes xs >>= fun crc => crc.foldBytes ys) := by
  rw [foldBytes, List.foldlM_append]
  rfl

def checksum (bs : Bytes) : Run UInt32 := do
  let crc ← new.foldBytes bs
  return crc.getFinalCRC.1

theorem length_table : table.length = 256 := by
  unfold table
  rw [List.length_map, List.length_range]

theorem table_top : distinctFrom 0 (table.map fun e => e.toNat >>> 24) = true := by decide +kernel

def register : ShiftTable 3 where
  entry i := (table.getD i 0).toNat
  entry_lt i _ := UInt32.toNat_lt _
  top_inj i hi j hj h := by
    have hnodup := (nodup_of_distinctFrom table_top).1
    have hget (k : Nat) (hk : k < 256) :
        (table.map fun e => e.toNat >>> 24)[k]? = some ((table.getD k 0).toNat >>> 24) := by
      rw [← length_table] at hk
      rw [List.getElem?_map, List.getElem?_eq_getElem hk, List.getD_eq_getElem _ _ hk]
      rfl
    apply (List.getElem?_inj (by rwa [List.length_map, length_table]) hnodup).mp
    rw [hget i hi, hget j hj]
    exact congrArg some h

theorem foldBytes_run (crc : CRC32) (h : crc.finalized = false) (bs : Bytes) :
    ∃ crc', crc.foldBytes bs = .ok crc' ∧ crc'.finalized = false ∧
      crc'.crcState.toNat = register.run crc.crcState.toNat bs := by
  induction bs generalizing crc with
  | nil => exact ⟨crc, rfl, h, rfl⟩
  | cons b bs ih =>
      obtain ⟨crc', hfold, hfin, hstate⟩ := ih { crc with
        crcState := (crc.crcState >>> 8) ^^^ table.getD ((crc.crcState &&& 0xFF) ^^^ b.toUInt32).toNat 0 } h
      refine ⟨crc', ?_, hfin, ?_⟩
      · simpa [foldBytes, foldByteIntoCRC, h] using hfold
      · rw [hstate]
        simp [ShiftTable.run, ShiftTable.step, ShiftTable.index, register]

theorem checksum_run (bs : Bytes) :
    ∃ c, checksum bs = .ok c ∧ register.run 0xFFFFFFFF bs = (c ^^^ 0xffffffff).toNat := by
  obtain ⟨crc, hfold, hfin, hstate⟩ := new.foldBytes_run rfl bs
  refine ⟨crc.getFinalCRC.1, ?_, ?_⟩
  · rw [checksum, hfold]
    rfl
  · have hnew : (new.crcState).toNat = 0xFFFFFFFF := rfl
    rw [hnew] at hstate
    simp [getFinalCRC, hfin, ← hstate]

/-- Bytes that differ within four bytes in a row have different checksums. -/
theorem checksum_burst {c : UInt32} (before after : Bytes) {us vs : Bytes} (hlen : us.length = vs.length)
    (hburst : us.length ≤ 4) (h : checksum (before ++ (us ++ after)) = .ok c)
    (h' : checksum (before ++ (vs ++ after)) = .ok c) : us = vs := by
  obtain ⟨c₁, hsum, hrun⟩ := checksum_run (before ++ (us ++ after))
  obtain ⟨c₂, hsum', hrun'⟩ := checksum_run (before ++ (vs ++ after))
  obtain rfl : c₁ = c := Except.ok.inj (hsum.symm.trans h)
  obtain rfl : c₂ = c₁ := Except.ok.inj (hsum'.symm.trans h')
  exact register.run_burst (by decide) before after hlen hburst (hrun.trans hrun'.symm)

end CRC32

end SearchEngine
