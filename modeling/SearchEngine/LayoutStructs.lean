import SearchEngine.Run
import SearchEngine.Library.BigEndian

namespace SearchEngine

open BigEndian

def int32 (x : Int) : Int := x.bmod (2 ^ 32)

def int16 (x : Int) : Int := x.bmod (2 ^ 16)

theorem int32_of_lt {x : Int} (h : 0 ≤ x) (hlt : x < 2 ^ 31) : int32 x = x := by
  apply Int.bmod_eq_of_le_mul_two <;> omega

theorem int16_of_lt {x : Int} (h : 0 ≤ x) (hlt : x < 2 ^ 15) : int16 x = x := by
  apply Int.bmod_eq_of_le_mul_two <;> omega

theorem int16_ge (x : Int) : -32768 ≤ int16 x := by
  have hmod := Int.le_bmod (x := x) (m := 2 ^ 16) (by decide)
  rw [int16]
  omega

theorem int16_lt (x : Int) : int16 x < 2 ^ 15 := by
  have hmod := Int.bmod_lt (x := x) (m := 2 ^ 16) (by decide)
  rw [int16]
  omega

theorem int32_lt (x : Int) : int32 x < 2 ^ 31 := by
  have hmod := Int.bmod_lt (x := x) (m := 2 ^ 32) (by decide)
  rw [int32]
  omega

theorem int32_eq_natCast {n : Nat} : int32 n = n ↔ n < 2 ^ 31 := by
  constructor
  · intro h
    have hlt := int32_lt n
    omega
  · intro h
    exact int32_of_lt (Int.natCast_nonneg n) (by omega)

/-- A number that has not been made negative by the narrowing. -/
theorem lt_of_int32_nonneg {x : Int} (hx : 0 ≤ x) (hlt : x < 2 ^ 32) (h : 0 ≤ int32 x) : x < 2 ^ 31 ∧ int32 x = x := by
  have hsmall : x < 2 ^ 31 := by
    rw [int32, Int.bmod_def] at h
    split at h <;> omega
  exact ⟨hsmall, int32_of_lt hx hsmall⟩

theorem toNat_int16_le (n : Nat) : (int16 n).toNat ≤ n := by
  have hmod := Int.bmod_le (x := (n : Int)) (m := 2 ^ 16) (by decide)
  rw [int16]
  by_cases h : n < 2 ^ 15
  · rw [← int16, int16_of_lt (by omega) (by omega)]
    omega
  · omega

/-- The fields of the packed structs as they stand in the file, and the fields
that ToHostFormat makes of those bytes. -/
def field64 (x : UInt64) : Bytes := bytes 8 x.toNat

def host64 (bs : Bytes) : UInt64 := UInt64.ofNat (value bs)

def fieldU32 (x : UInt32) : Bytes := bytes 4 x.toNat

def host32 (bs : Bytes) : UInt32 := UInt32.ofNat (value bs)

def field32 (x : Int) : Bytes := field 4 x

def field16 (x : Int) : Bytes := field 2 x

theorem host64_field64 (x : UInt64) : host64 (field64 x) = x := by
  rw [host64, field64, value_bytes_of_lt (by simpa using x.toNat_lt), UInt64.ofNat_toNat]

theorem host32_fieldU32 (x : UInt32) : host32 (fieldU32 x) = x := by
  rw [host32, fieldU32, value_bytes_of_lt (by simpa using x.toNat_lt), UInt32.ofNat_toNat]

theorem signed_field32 (x : Int) : signed (field32 x) = int32 x :=
  (signed_field 4 x).trans (congrArg (Int.bmod x) (by decide))

theorem signed_field16 (x : Int) : signed (field16 x) = int16 x :=
  (signed_field 2 x).trans (congrArg (Int.bmod x) (by decide))

@[simp]
theorem length_field64 (x : UInt64) : (field64 x).length = 8 := length_bytes 8 _

@[simp]
theorem length_fieldU32 (x : UInt32) : (fieldU32 x).length = 4 := length_bytes 4 _

@[simp]
theorem length_field32 (x : Int) : (field32 x).length = 4 := length_field 4 x

@[simp]
theorem length_field16 (x : Int) : (field16 x).length = 2 := length_field 2 x

def kMagicNumber : UInt32 := 0xCAFEF00D

structure IndexFileHeader where
  magicNumber : UInt32
  checksum : UInt32
  doctableBytes : Int
  indexBytes : Int

structure BucketListHeader where
  numBuckets : Int

structure BucketRecord where
  chainNumElements : Int
  position : Int

structure ElementPositionRecord where
  position : Int

structure DoctableElementHeader where
  docId : UInt64
  fileNameBytes : Int

structure WordPostingsHeader where
  wordBytes : Int
  postingsBytes : Int

structure DocIDElementHeader where
  docId : UInt64
  numPositions : Int
  deriving DecidableEq

structure DocIDElementPosition where
  position : UInt32

namespace IndexFileHeader

def sizeof : Nat := 16

def toDisk (h : IndexFileHeader) : Bytes :=
  fieldU32 h.magicNumber ++ (fieldU32 h.checksum ++ (field32 h.doctableBytes ++ field32 h.indexBytes))

def ofDisk (bs : Bytes) : IndexFileHeader :=
  ⟨host32 (bs.take 4), host32 ((bs.drop 4).take 4), signed (((bs.drop 4).drop 4).take 4),
    signed (((bs.drop 4).drop 4).drop 4)⟩

@[simp]
theorem length_toDisk (h : IndexFileHeader) : h.toDisk.length = 16 := by simp [toDisk]

theorem ofDisk_toDisk (h : IndexFileHeader) :
    ofDisk h.toDisk = ⟨h.magicNumber, h.checksum, int32 h.doctableBytes, int32 h.indexBytes⟩ := by
  have hdrop (xs ys : Bytes) (h : xs.length = 4) : (xs ++ ys).drop 4 = ys := List.drop_left' h
  have htake (xs ys : Bytes) (h : xs.length = 4) : (xs ++ ys).take 4 = xs := List.take_left' h
  simp [ofDisk, toDisk, -List.drop_drop, hdrop, htake, host32_fieldU32, signed_field32]

end IndexFileHeader

namespace BucketListHeader

def sizeof : Nat := 4

def toDisk (h : BucketListHeader) : Bytes := field32 h.numBuckets

def ofDisk (bs : Bytes) : BucketListHeader := ⟨signed bs⟩

@[simp]
theorem length_toDisk (h : BucketListHeader) : h.toDisk.length = 4 := length_field32 _

theorem ofDisk_toDisk (h : BucketListHeader) : ofDisk h.toDisk = ⟨int32 h.numBuckets⟩ := by
  simp [ofDisk, toDisk, signed_field32]

end BucketListHeader

namespace BucketRecord

def sizeof : Nat := 8

def toDisk (r : BucketRecord) : Bytes := field32 r.chainNumElements ++ field32 r.position

def ofDisk (bs : Bytes) : BucketRecord := ⟨signed (bs.take 4), signed (bs.drop 4)⟩

@[simp]
theorem length_toDisk (r : BucketRecord) : r.toDisk.length = 8 := by simp [toDisk]

theorem ofDisk_toDisk (r : BucketRecord) : ofDisk r.toDisk = ⟨int32 r.chainNumElements, int32 r.position⟩ := by
  simp [ofDisk, toDisk, signed_field32]

end BucketRecord

namespace ElementPositionRecord

def sizeof : Nat := 4

def toDisk (r : ElementPositionRecord) : Bytes := field32 r.position

def ofDisk (bs : Bytes) : ElementPositionRecord := ⟨signed bs⟩

@[simp]
theorem length_toDisk (r : ElementPositionRecord) : r.toDisk.length = 4 := length_field32 _

theorem ofDisk_toDisk (r : ElementPositionRecord) : ofDisk r.toDisk = ⟨int32 r.position⟩ := by
  simp [ofDisk, toDisk, signed_field32]

end ElementPositionRecord

namespace DoctableElementHeader

def sizeof : Nat := 10

def toDisk (h : DoctableElementHeader) : Bytes := field64 h.docId ++ field16 h.fileNameBytes

def ofDisk (bs : Bytes) : DoctableElementHeader := ⟨host64 (bs.take 8), signed (bs.drop 8)⟩

@[simp]
theorem length_toDisk (h : DoctableElementHeader) : h.toDisk.length = 10 := by simp [toDisk]

theorem ofDisk_toDisk (h : DoctableElementHeader) : ofDisk h.toDisk = ⟨h.docId, int16 h.fileNameBytes⟩ := by
  simp [ofDisk, toDisk, host64_field64, signed_field16]

end DoctableElementHeader

namespace WordPostingsHeader

def sizeof : Nat := 6

def toDisk (h : WordPostingsHeader) : Bytes := field16 h.wordBytes ++ field32 h.postingsBytes

def ofDisk (bs : Bytes) : WordPostingsHeader := ⟨signed (bs.take 2), signed (bs.drop 2)⟩

@[simp]
theorem length_toDisk (h : WordPostingsHeader) : h.toDisk.length = 6 := by simp [toDisk]

theorem ofDisk_toDisk (h : WordPostingsHeader) :
    ofDisk h.toDisk = ⟨int16 h.wordBytes, int32 h.postingsBytes⟩ := by
  simp [ofDisk, toDisk, signed_field16, signed_field32]

end WordPostingsHeader

namespace DocIDElementHeader

def sizeof : Nat := 12

def toDisk (h : DocIDElementHeader) : Bytes := field64 h.docId ++ field32 h.numPositions

def ofDisk (bs : Bytes) : DocIDElementHeader := ⟨host64 (bs.take 8), signed (bs.drop 8)⟩

@[simp]
theorem length_toDisk (h : DocIDElementHeader) : h.toDisk.length = 12 := by simp [toDisk]

theorem ofDisk_toDisk (h : DocIDElementHeader) : ofDisk h.toDisk = ⟨h.docId, int32 h.numPositions⟩ := by
  simp [ofDisk, toDisk, host64_field64, signed_field32]

end DocIDElementHeader

namespace DocIDElementPosition

def sizeof : Nat := 4

def toDisk (p : DocIDElementPosition) : Bytes := fieldU32 p.position

def ofDisk (bs : Bytes) : DocIDElementPosition := ⟨host32 bs⟩

@[simp]
theorem length_toDisk (p : DocIDElementPosition) : p.toDisk.length = 4 := length_fieldU32 _

theorem ofDisk_toDisk (p : DocIDElementPosition) : ofDisk p.toDisk = p := by
  simp [ofDisk, toDisk, host32_fieldU32]

end DocIDElementPosition

end SearchEngine
