import SearchEngine.Crc32
import SearchEngine.FileParser
import SearchEngine.LayoutStructs
import SearchEngine.Stdio

/-! The checker hw3fsck. What it prints is left out, only the results of its
checks are kept. -/

namespace SearchEngine

open BigEndian FileProgram OpenFile Program

namespace FileProgram

def assert (cond : Bool) : FileProgram Unit := if cond then return () else .fail .assertFailed

def fseekAsserted (offset : Int) : FileProgram Unit := do
  assert (← fseek offset)

def freadAsserted (n : Nat) : FileProgram Bytes := do
  match ← fread n with
  | some bytes => return bytes
  | none => .fail .assertFailed

/-- An array of one byte more is declared on the stack, and the bytes are read
into it as one item. A read of an item without bytes returns 0. -/
def readArray (len : Int) : FileProgram Bytes := do
  if len < 0 then .fail .badAccess
  else if len = 0 then .fail .assertFailed
  else freadAsserted len.toNat

/-- As many single bytes as there are, up to n. -/
def freadUpTo : Nat → FileProgram Bytes
  | 0 => return []
  | n + 1 => do
      match ← fread (n + 1) with
      | some bytes => return bytes
      | none => freadUpTo n

def mulInt (a b : Int) : FileProgram Int :=
  ofRun (if -INT_MAX - 1 ≤ a * b ∧ a * b ≤ INT_MAX then .ok (a * b) else .error .signedOverflow)

theorem run_fseekAsserted (offset : Int) (f : OpenFile) :
    (fseekAsserted offset).run handle f =
      if 0 ≤ offset then .ok ((), { f with pos := offset.toNat }) else .error .assertFailed := by
  rw [fseekAsserted, run_bind, run_fseek, ok_bind]
  by_cases h : 0 ≤ offset
  · simp [h, assert]
  · simp [h, assert]

theorem run_freadAsserted (n : Nat) (f : OpenFile) :
    (freadAsserted n).run handle f = if f.pos + n ≤ f.image.length then
      .ok (f.image.slice f.pos n, { f with pos := f.pos + n }) else .error .assertFailed := by
  rw [freadAsserted, fread, run_bind, run_bind, run_perform, ok_bind, handle]
  by_cases h : f.pos + n ≤ f.image.length
  · rw [if_pos h, if_pos h]
    rfl
  · rw [if_neg h, if_neg h]
    rfl

theorem run_mulInt_eq (a b : Int) (f : OpenFile) :
    (mulInt a b).run handle f =
      if -INT_MAX - 1 ≤ a * b ∧ a * b ≤ INT_MAX then .ok (a * b, f) else .error .signedOverflow := by
  rw [mulInt]
  split <;> rfl

theorem run_readArray (len : Int) (f : OpenFile) :
    (readArray len).run handle f = if len < 0 then .error .badAccess
      else if len = 0 then .error .assertFailed
      else if f.pos + len.toNat ≤ f.image.length then
        .ok (f.image.slice f.pos len.toNat, { f with pos := f.pos + len.toNat })
      else .error .assertFailed := by
  rw [readArray]
  split
  · rfl
  · split
    · rfl
    · rw [run_freadAsserted]

end FileProgram

def int64 (x : Int) : Int := x.bmod (2 ^ 64)

def kFileIndexHeaderSize : Int := 16
def kBucketLengthSize : Int := 4
def kBucketRecordSize : Int := 8
def kElementPositionSize : Int := 4
def kMagicNumberOffset : Int := 0
def kWordLenSize : Int := 2
def kDocIDTableLengthSize : Int := 4

def checkEQ16 (expected actual : Int) : Bool := expected = actual
def checkEQ32 (expected actual : Int) : Bool := expected = actual
def checkEQ64 (expected actual : Int) : Bool := expected = actual

def checkLT16 (smaller bigger : Int) : Bool := smaller < bigger
def checkLT32 (smaller bigger : Int) : Bool := smaller < bigger

def isascii (c : UInt8) : Bool := c ≤ 0x7F

def islower (c : UInt8) : Bool := 97 ≤ c && c ≤ 122

/-- The remainder by a signed count, of 64-bit numbers without a sign. -/
def docIdMod (docId : UInt64) (numBuckets : Int) : Run Int :=
  if numBuckets = 0 then .error .divisionByZero else .ok (docId.toNat % (numBuckets % 2 ^ 64))

structure HashTableChecker where
  offset : Int
  len : Int

namespace HashTableChecker

/-- The inner loop of Check, over so many elements from the j-th on. -/
def checkChain (checkElement : Int → FileProgram Bool) (tableEnd curBucket : Int) : Nat → Nat → FileProgram Bool
  | 0, _ => return true
  | n + 1, j => do
      fseekAsserted (← addInt curBucket (← mulInt j kElementPositionSize))
      let elementPos := signed (← freadAsserted 4)
      let inTable := checkLT32 elementPos (← addInt tableEnd 1)
      let good ← checkElement elementPos
      let rest ← checkChain checkElement tableEnd curBucket n (j + 1)
      return inTable && good && rest

/-- The checks of a bucket's position. The last argument is prev_bucket, once
a bucket with elements has been found; for the first of them it is read from
the first record of all. -/
def checkOrder (c : HashTableChecker) (numBuckets curChainLen curBucket : Int) (prevBucket : Option Int) :
    FileProgram (Bool × Option Int) := do
  if 0 < curChainLen then
    match prevBucket with
    | some prev => return (checkLT32 prev curBucket, some curBucket)
    | none =>
        fseekAsserted (← addInt c.offset kBucketLengthSize)
        let _ ← freadAsserted 4
        let prev := signed (← freadAsserted 4)
        let expected ← addInt (← addInt c.offset kBucketLengthSize) (← mulInt kBucketRecordSize numBuckets)
        return (checkEQ32 expected prev, some prev)
  else return (true, prevBucket)

/-- The outer loop of Check, over so many buckets from the i-th on. -/
def checkBuckets (c : HashTableChecker) (checkElement : Int → Int → FileProgram Bool) (offset len numBuckets : Int) :
    Nat → Nat → Option Int → FileProgram Bool
  | 0, _, _ => return true
  | n + 1, i, prevBucket => do
      fseekAsserted (← addInt (← addInt c.offset kBucketLengthSize) (← mulInt kBucketRecordSize i))
      let curChainLen := signed (← freadAsserted 4)
      let curBucket := signed (← freadAsserted 4)
      let (ordered, prevBucket) ← c.checkOrder numBuckets curChainLen curBucket prevBucket
      let tableEnd ← addInt offset len
      -- cur_bucket is compared with this sum too, but that result is dropped
      let _ ← addInt tableEnd 1
      let good ← checkChain (fun elementPos => checkElement elementPos i) tableEnd curBucket curChainLen.toNat 0
      let rest ← c.checkBuckets checkElement offset len numBuckets n (i + 1) prevBucket
      return ordered && good && rest

/-- CheckElement gets num_buckets_, an offset and the number of a bucket. -/
def check (c : HashTableChecker) (checkElement : Int → Int → Int → FileProgram Bool) (offset len : Int) :
    FileProgram Bool := do
  fseekAsserted c.offset
  let numBuckets := signed (← freadAsserted 4)
  let fits := checkLT32 (← mulInt numBuckets kBucketRecordSize) len
  let good ← c.checkBuckets (checkElement numBuckets) offset len numBuckets numBuckets.toNat 0 none
  return fits && good

end HashTableChecker

namespace DocTableChecker

/-- The length of the name is compared with 1024, but that result is
dropped. -/
def checkElement (numBuckets elementOffset bucketNumber : Int) : FileProgram Bool := do
  fseekAsserted elementOffset
  let docId := host64 (← freadAsserted 8)
  let inBucket := checkEQ32 bucketNumber (int32 (← ofRun (docIdMod docId numBuckets)))
  let fnLen := signed (← freadAsserted 2)
  let fileName ← readArray fnLen
  return inBucket && fileName.all fun c => checkEQ16 1 (if isascii c then 1 else 0)

end DocTableChecker

namespace DocIDTableChecker

def checkPositions : Nat → Option Int → FileProgram Bool
  | 0, _ => return true
  | n + 1, prevPos => do
      let curPos := signed (← freadAsserted 4)
      let ascending := prevPos.all fun prev => checkLT32 prev curPos
      let rest ← checkPositions n (some curPos)
      return ascending && rest

def checkElement (numBuckets elementOffset bucketNumber : Int) : FileProgram Bool := do
  fseekAsserted elementOffset
  let docId := host64 (← freadAsserted 8)
  let inBucket := checkEQ64 bucketNumber (int64 (← ofRun (docIdMod docId numBuckets)))
  let numPos := signed (← freadAsserted 4)
  let few := checkLT32 numPos 1000000
  let ascending ← checkPositions numPos.toNat none
  return inBucket && few && ascending

end DocIDTableChecker

namespace IndexTableChecker

def checkLetter (c : UInt8) : Bool :=
  checkEQ16 1 (if isascii c then 1 else 0) &&
    (!FileParser.isalpha c || checkEQ16 1 (if islower c then 1 else 0))

def checkElement (c : HashTableChecker) (_numBuckets elementOffset _bucketNumber : Int) : FileProgram Bool := do
  fseekAsserted elementOffset
  let wordLen := signed (← freadAsserted 2)
  let short := checkLT16 wordLen 8192
  let docIdTableLen := signed (← freadAsserted 4)
  let tableStart ← addInt (← addInt (← addInt elementOffset kWordLenSize) kDocIDTableLengthSize) wordLen
  let inTable := checkLT32 tableStart (← addInt c.offset c.len)
  let word ← readArray wordLen
  let lower := word.all checkLetter
  let ditc : HashTableChecker := ⟨tableStart, docIdTableLen⟩
  let good ← ditc.check DocIDTableChecker.checkElement tableStart docIdTableLen
  return short && inTable && lower && good

end IndexTableChecker

structure FileIndexChecker where
  doctableSize : Int
  indexSize : Int

namespace FileIndexChecker

def kBufSize : Nat := 512

def new : FileProgram FileIndexChecker := do
  assert (← succeeds .openRead)
  let _ ← fseek 8
  let doctableSize := signed (← freadAsserted 4)
  let indexSize := signed (← freadAsserted 4)
  return ⟨doctableSize, indexSize⟩

/-- The loop that recalculates the checksum. The first argument bounds its
rounds. -/
def foldFile : Nat → Int → CRC32 → FileProgram CRC32
  | 0, _, _ => .fail .outOfFuel
  | rounds + 1, bytesLeft, crc => do
      if 0 < bytesLeft then
        let buf ← freadUpTo kBufSize
        assert (0 < buf.length)
        let crc ← ofRun (crc.foldBytes buf)
        foldFile rounds (bytesLeft - buf.length) crc
      else return crc

def checkHeader (c : FileIndexChecker) : FileProgram Bool := do
  fseekAsserted kMagicNumberOffset
  let magicNumber := host32 (← freadAsserted 4)
  let magicGood := checkEQ32 (int32 kMagicNumber.toNat) (int32 magicNumber.toNat)
  let checksum := host32 (← freadAsserted 4)
  let stSize ← fileSize
  let sizeGood := checkEQ32 (int32 (stSize - kFileIndexHeaderSize)) (← addInt c.doctableSize c.indexSize)
  let _ ← fseek kFileIndexHeaderSize
  let bytesLeft := int32 (stSize - kFileIndexHeaderSize)
  let crc ← foldFile (bytesLeft.toNat + 1) bytesLeft .new
  let crcGood := checkEQ32 (int32 crc.getFinalCRC.1.toNat) (int32 checksum.toNat)
  return magicGood && sizeGood && crcGood

def checkDocTable (c : FileIndexChecker) : FileProgram Bool := do
  let dtc : HashTableChecker := ⟨kFileIndexHeaderSize, c.doctableSize⟩
  dtc.check DocTableChecker.checkElement kFileIndexHeaderSize c.doctableSize

def checkIndexTable (c : FileIndexChecker) : FileProgram Bool := do
  let offset ← addInt kFileIndexHeaderSize c.doctableSize
  let itc : HashTableChecker := ⟨offset, c.indexSize⟩
  itc.check (IndexTableChecker.checkElement itc) offset c.indexSize

def checkFile (c : FileIndexChecker) : FileProgram Bool := do
  let headerGood ← c.checkHeader
  let docsGood ← c.checkDocTable
  let indexGood ← c.checkIndexTable
  return headerGood && docsGood && indexGood

end FileIndexChecker

/-- The checker is made for a file, and checks it. -/
def hw3fsck : FileProgram Bool := do
  let fic ← FileIndexChecker.new
  fic.checkFile

end SearchEngine
