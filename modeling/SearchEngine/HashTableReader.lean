import SearchEngine.HashTable
import SearchEngine.LayoutStructs
import SearchEngine.Stdio

namespace SearchEngine

open FileProgram

structure HashTableReader where
  offset : Int
  numBuckets : Int

namespace HashTableReader

variable {α : Type}

def new (offset : Int) : FileProgram HashTableReader := do
  fseekVerified offset
  let header := BucketListHeader.ofDisk (← freadVerified BucketListHeader.sizeof)
  return ⟨offset, header.numBuckets⟩

/-- The remainder is taken of 64-bit numbers without a sign. -/
def bucketNum (r : HashTableReader) (hashKey : UInt64) : Run Int :=
  if r.numBuckets = 0 then .error .divisionByZero
  else .ok (int32 (hashKey.toNat % (r.numBuckets % 2 ^ 64)))

def readPositions : Nat → FileProgram (List Int)
  | 0 => return []
  | n + 1 => do
      let curr := ElementPositionRecord.ofDisk (← freadVerified ElementPositionRecord.sizeof)
      let rest ← readPositions n
      return curr.position :: rest

def lookupElementPositions (r : HashTableReader) (hashKey : UInt64) : FileProgram (List Int) := do
  let bucketNum ← ofRun (r.bucketNum hashKey)
  let bucketRecOffset := int32 (r.offset + BucketListHeader.sizeof + BucketRecord.sizeof * bucketNum)
  fseekVerified bucketRecOffset
  let bucketRec := BucketRecord.ofDisk (← freadVerified BucketRecord.sizeof)
  fseekVerified bucketRec.position
  readPositions bucketRec.chainNumElements.toNat

/-- The loop of the three lookups over the elements of a bucket. -/
def firstMatch (matchAt : Int → FileProgram (Option α)) : List Int → FileProgram (Option α)
  | [] => return none
  | offset :: rest => do
      match ← matchAt offset with
      | some a => return some a
      | none => firstMatch matchAt rest

def readChars : Nat → FileProgram Bytes
  | 0 => return []
  | n + 1 => do
      let nextChar ← freadVerified 1
      let rest ← readChars n
      return nextChar ++ rest

end HashTableReader

open HashTableReader

namespace DocTableReader

def matchDocID (docId : UInt64) (offset : Int) : FileProgram (Option Bytes) := do
  fseekVerified offset
  let header := DoctableElementHeader.ofDisk (← freadVerified DoctableElementHeader.sizeof)
  if header.docId = docId then
    let name ← readChars header.fileNameBytes.toNat
    return some name
  else return none

def lookupDocID (r : HashTableReader) (docId : UInt64) : FileProgram (Option Bytes) := do
  let elements ← r.lookupElementPositions docId
  firstMatch (matchDocID docId) elements

end DocTableReader

namespace DocIDTableReader

def readPositionList : Nat → FileProgram (List UInt32)
  | 0 => return []
  | n + 1 => do
      let pos := DocIDElementPosition.ofDisk (← freadVerified DocIDElementPosition.sizeof)
      let rest ← readPositionList n
      return pos.position :: rest

def matchDocID (docId : UInt64) (offset : Int) : FileProgram (Option (List UInt32)) := do
  fseekVerified offset
  let header := DocIDElementHeader.ofDisk (← freadVerified DocIDElementHeader.sizeof)
  if header.docId = docId then
    let positions ← readPositionList header.numPositions.toNat
    return some positions
  else return none

def lookupDocID (r : HashTableReader) (docId : UInt64) : FileProgram (Option (List UInt32)) := do
  let elements ← r.lookupElementPositions docId
  firstMatch (matchDocID docId) elements

/-- The inner loop of GetDocIDList, over so many elements from the j-th on. -/
def bucketDocIDs (position : Int) : Nat → Nat → FileProgram (List DocIDElementHeader)
  | 0, _ => return []
  | n + 1, j => do
      fseekVerified (position + j * ElementPositionRecord.sizeof)
      let elementPos := ElementPositionRecord.ofDisk (← freadVerified ElementPositionRecord.sizeof)
      fseekVerified elementPos.position
      let element := DocIDElementHeader.ofDisk (← freadVerified DocIDElementHeader.sizeof)
      let rest ← bucketDocIDs position n (j + 1)
      return element :: rest

def tableDocIDs (offset : Int) : Nat → Nat → FileProgram (List DocIDElementHeader)
  | 0, _ => return []
  | n + 1, i => do
      fseekVerified (offset + BucketListHeader.sizeof + i * BucketRecord.sizeof)
      let bucketRec := BucketRecord.ofDisk (← freadVerified BucketRecord.sizeof)
      let elements ← bucketDocIDs bucketRec.position bucketRec.chainNumElements.toNat 0
      let rest ← tableDocIDs offset n (i + 1)
      return elements ++ rest

def getDocIDList (r : HashTableReader) : FileProgram (List DocIDElementHeader) :=
  tableDocIDs r.offset r.numBuckets.toNat 0

end DocIDTableReader

namespace IndexTableReader

def matchWord (word : Bytes) (offset : Int) : FileProgram (Option HashTableReader) := do
  fseekVerified offset
  let header := WordPostingsHeader.ofDisk (← freadVerified WordPostingsHeader.sizeof)
  if header.wordBytes ≠ toInt word.length then return none
  let chars ← readChars header.wordBytes.toNat
  if word = chars then
    let reader ← HashTableReader.new (int32 (offset + WordPostingsHeader.sizeof + header.wordBytes))
    return some reader
  else return none

/-- The FileDup for the reader that is returned is taken to succeed. How many
readers are open is part of ReaderOwnership.lookupWord. -/
def lookupWord (r : HashTableReader) (word : Bytes) : FileProgram (Option HashTableReader) := do
  let elements ← r.lookupElementPositions (hashString word)
  firstMatch (matchWord word) elements

end IndexTableReader

end SearchEngine
