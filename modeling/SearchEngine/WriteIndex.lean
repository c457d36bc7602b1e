import SearchEngine.Crc32
import SearchEngine.DocTable
import SearchEngine.LayoutStructs
import SearchEngine.MemIndex
import SearchEngine.Stdio

namespace SearchEngine

namespace WriteIndex

open FileProgram

variable {V : Type}

def kFailedWrite : Int := -1

abbrev WriteElementFn (V : Type) := Int → HTKeyValue V → FileProgram Int

/-- The number of items fwrite reports is the one asked for: of one item of
so many bytes, where an item of no bytes does not count. -/
def fwriteItem (buf : Bytes) (size : Int) : FileProgram Bool :=
  if size < 0 then .fail .badAccess
  else if size = 0 then return false
  else fwrite (buf.take size.toNat)

def fwriteChars (buf : Bytes) (count : Int) : FileProgram Bool :=
  if count < 0 then .fail .badAccess
  else if count = 0 then return true
  else fwrite (buf.take count.toNat)

def writeHTBucketRecord (offset numElts bucketOffset : Int) : FileProgram Int := do
  if !(← fseek offset) then return kFailedWrite
  if !(← fwrite (BucketRecord.mk numElts bucketOffset).toDisk) then return kFailedWrite
  return BucketRecord.sizeof

/-- The loop of WriteHTBucket. The result is the position after the last
element. -/
def writeElements (fn : WriteElementFn V) : List (HTKeyValue V) → Int → Int → FileProgram (Option Int)
  | [], _, elementPos => return some elementPos
  | payload :: rest, recordPos, elementPos => do
      if !(← fseek recordPos) then return none
      if !(← fwrite (ElementPositionRecord.mk elementPos).toDisk) then return none
      let elementBytes ← fn elementPos payload
      if elementBytes < 0 then return none
      let elementPos ← addInt elementPos elementBytes
      writeElements fn rest (int32 (recordPos + ElementPositionRecord.sizeof)) elementPos

def writeHTBucket (fn : WriteElementFn V) (offset : Int) (li : LinkedList (HTKeyValue V)) : FileProgram Int := do
  let numElts := li.numElements
  if numElts = 0 then return 0
  match ← writeElements fn li.payloads offset (int32 (offset + ElementPositionRecord.sizeof * numElts)) with
  | none => return kFailedWrite
  | some elementPos => addInt elementPos (-offset)

/-- The loop of WriteHashTable. An empty bucket has a record and nothing else. -/
def writeBuckets (fn : WriteElementFn V) : List (LinkedList (HTKeyValue V)) → Int → Int → FileProgram (Option Int)
  | [], _, bucketPos => return some bucketPos
  | li :: rest, recordPos, bucketPos => do
      let recordBytes ← writeHTBucketRecord recordPos li.numElements bucketPos
      if recordBytes = kFailedWrite then return none
      let recordPos ← addInt recordPos recordBytes
      if li.numElements = 0 then writeBuckets fn rest recordPos bucketPos
      else
        let bucketBytes ← writeHTBucket fn bucketPos li
        if bucketBytes = kFailedWrite then return none
        let bucketPos ← addInt bucketPos bucketBytes
        writeBuckets fn rest recordPos bucketPos

def writeHashTable (fn : WriteElementFn V) (offset : Int) (ht : HashTable V) : FileProgram Int := do
  if !(← fseek offset) then return kFailedWrite
  if !(← fwrite (BucketListHeader.mk ht.numBuckets).toDisk) then return kFailedWrite
  let recordPos := int32 (offset + BucketListHeader.sizeof)
  let bucketPos := int32 (offset + BucketListHeader.sizeof + ht.numBuckets * BucketRecord.sizeof)
  match ← writeBuckets fn ht.buckets recordPos bucketPos with
  | none => return kFailedWrite
  | some bucketPos => addInt bucketPos (-offset)

def writeDocidToDocnameFn : WriteElementFn Bytes := fun offset kv => do
  let fileNameBytes := int16 kv.value.length
  if !(← fseek offset) then return kFailedWrite
  if !(← fwrite (DoctableElementHeader.mk kv.key fileNameBytes).toDisk) then return kFailedWrite
  if !(← fwriteItem kv.value fileNameBytes) then return kFailedWrite
  return int32 (DoctableElementHeader.sizeof + fileNameBytes)

/-- Each position is cut to 32 bits on its way into the struct: LLIterator_Get
stores all of its 8 bytes at the address of the struct, which has 4. What is
behind the struct is not modelled. -/
def writePositions : List UInt64 → FileProgram Bool
  | [] => return true
  | position :: rest => do
      if !(← fwrite (DocIDElementPosition.mk position.toUInt32).toDisk) then return false
      writePositions rest

def writeDocIDToPositionListFn : WriteElementFn Postings := fun offset kv => do
  let numPositions := kv.value.numElements
  if !(← fseek offset) then return kFailedWrite
  if !(← fwrite (DocIDElementHeader.mk kv.key numPositions).toDisk) then return kFailedWrite
  if !(← writePositions kv.value.payloads) then return kFailedWrite
  return int32 (DocIDElementHeader.sizeof + numPositions * DocIDElementPosition.sizeof)

def writeWordToPostingsFn : WriteElementFn WordPostings := fun offset kv => do
  let wp := kv.value
  let wordBytes := int16 wp.word.length
  let htBytes ← writeHashTable writeDocIDToPositionListFn (int32 (offset + WordPostingsHeader.sizeof + wordBytes))
    wp.postings
  if htBytes = kFailedWrite then return kFailedWrite
  if !(← fseek offset) then return kFailedWrite
  if !(← fwrite (WordPostingsHeader.mk wordBytes htBytes).toDisk) then return kFailedWrite
  if !(← fseek (offset + WordPostingsHeader.sizeof)) then return kFailedWrite
  if !(← fwriteChars wp.word wordBytes) then return kFailedWrite
  return int32 (WordPostingsHeader.sizeof + wordBytes + htBytes)

def writeDocTable (dt : DocTable) (offset : Int) : FileProgram Int :=
  writeHashTable writeDocidToDocnameFn offset dt.idToName

def writeMemIndex (mi : MemIndex) (offset : Int) : FileProgram Int :=
  writeHashTable writeWordToPostingsFn offset mi

def readIntoCRC : Nat → CRC32 → FileProgram (Option CRC32)
  | 0, crc => return some crc
  | n + 1, crc => do
      match ← fread 1 with
      | none => return none
      | some bytes =>
          let crc ← ofRun (crc.foldBytes bytes)
          readIntoCRC n crc

def writeHeader (doctableBytes memidxBytes : Int) : FileProgram Int := do
  if !(← fseek IndexFileHeader.sizeof) then return kFailedWrite
  let tableBytes ← addInt doctableBytes memidxBytes
  match ← readIntoCRC tableBytes.toNat .new with
  | none => return kFailedWrite
  | some crc =>
      if !(← fseek IndexFileHeader.sizeof) then return kFailedWrite
      let header := IndexFileHeader.mk kMagicNumber crc.getFinalCRC.1 doctableBytes memidxBytes
      if !(← fseek 0) then return kFailedWrite
      if !(← fwrite header.toDisk) then return kFailedWrite
      FileProgram.verify333 (← succeeds .sync)
      return IndexFileHeader.sizeof

def abandon : FileProgram Int := do
  let _ ← succeeds .close
  let _ ← succeeds .unlink
  return kFailedWrite

def writeIndex (mi : MemIndex) (dt : DocTable) : FileProgram Int := do
  if !(← succeeds .create) then return kFailedWrite
  let curPos : Int := IndexFileHeader.sizeof
  let dtBytes ← writeDocTable dt curPos
  if dtBytes = kFailedWrite then return ← abandon
  let curPos ← addInt curPos dtBytes
  let miBytes ← writeMemIndex mi curPos
  if miBytes = kFailedWrite then return ← abandon
  let curPos ← addInt curPos miBytes
  if (← writeHeader dtBytes miBytes) = kFailedWrite then return ← abandon
  let _ ← succeeds .close
  return curPos

end WriteIndex

end SearchEngine
