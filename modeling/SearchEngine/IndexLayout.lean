import SearchEngine.Crc32
import SearchEngine.DocTable
import SearchEngine.LayoutStructs
import SearchEngine.MemIndex
import SearchEngine.Library.Layout

/-! The bytes of an index file, as a function of the two structures in it. -/

namespace SearchEngine

open Layout

/-- How the elements of one kind of hash table look at an offset. -/
structure ElementFormat (V : Type) where
  size : HTKeyValue V → Nat
  encode : Nat → HTKeyValue V → Bytes
  length_encode : ∀ kv p, (encode p kv).length = size kv

namespace ElementFormat

variable {V : Type} (F : ElementFormat V)

def positionRecord (p : Nat) (_ : HTKeyValue V) : Bytes := (ElementPositionRecord.mk p).toDisk

def bucketSize (li : LinkedList (HTKeyValue V)) : Nat := 4 * li.numElements + total F.size li.payloads

/-- A bucket: the positions of its elements, and the elements. -/
def bucketBytes (p : Nat) (li : LinkedList (HTKeyValue V)) : Bytes :=
  layout F.size positionRecord (p + 4 * li.numElements) li.payloads ++
    layout F.size F.encode (p + 4 * li.numElements) li.payloads

def bucketRecord (p : Nat) (li : LinkedList (HTKeyValue V)) : Bytes := (BucketRecord.mk li.numElements p).toDisk

def tableSize (t : HashTable V) : Nat := 4 + 8 * t.numBuckets + total F.bucketSize t.buckets

/-- A table: its bucket count, a record for each bucket, and the buckets. -/
def tableBytes (off : Nat) (t : HashTable V) : Bytes :=
  (BucketListHeader.mk t.numBuckets).toDisk ++
    (layout F.bucketSize bucketRecord (off + 4 + 8 * t.numBuckets) t.buckets ++
      layout F.bucketSize F.bucketBytes (off + 4 + 8 * t.numBuckets) t.buckets)

theorem length_positionRecords (p : Nat) (kvs : List (HTKeyValue V)) :
    (layout F.size positionRecord p kvs).length = 4 * kvs.length := by
  have h : (layout F.size positionRecord p kvs).length = total (fun _ => 4) kvs :=
    length_layout fun kv _ p => ElementPositionRecord.length_toDisk _
  rw [h, total_const]

theorem length_elements (p : Nat) (kvs : List (HTKeyValue V)) :
    (layout F.size F.encode p kvs).length = total F.size kvs :=
  length_layout fun kv _ p => F.length_encode kv p

theorem length_bucketBytes (li : LinkedList (HTKeyValue V)) (p : Nat) :
    (F.bucketBytes p li).length = F.bucketSize li := by
  rw [bucketBytes, List.length_append, length_positionRecords, length_elements, LinkedList.length_payloads]
  rfl

theorem length_bucketRecords (p : Nat) (lis : List (LinkedList (HTKeyValue V))) :
    (layout F.bucketSize bucketRecord p lis).length = 8 * lis.length := by
  have h : (layout F.bucketSize bucketRecord p lis).length = total (fun _ => 8) lis :=
    length_layout fun li _ p => BucketRecord.length_toDisk _
  rw [h, total_const]

theorem length_buckets (p : Nat) (lis : List (LinkedList (HTKeyValue V))) :
    (layout F.bucketSize F.bucketBytes p lis).length = total F.bucketSize lis :=
  length_layout fun li _ p => F.length_bucketBytes li p

theorem tableSize_buckets (t : HashTable V) :
    F.tableSize t = 4 + 8 * t.numBuckets + total F.bucketSize t.buckets := (rfl)

theorem length_tableBytes (off : Nat) (t : HashTable V) : (F.tableBytes off t).length = F.tableSize t := by
  rw [tableBytes, List.length_append, List.length_append, length_bucketRecords, length_buckets,
    BucketListHeader.length_toDisk, t.size, tableSize]
  omega

theorem bucketSize_empty {li : LinkedList (HTKeyValue V)} (h : li.numElements = 0) : F.bucketSize li = 0 := by
  have hnil : li.payloads = [] := List.eq_nil_of_length_eq_zero (by rw [LinkedList.length_payloads, h])
  simp [bucketSize, h, hnil]

theorem bucketBytes_empty {li : LinkedList (HTKeyValue V)} (h : li.numElements = 0) (p : Nat) :
    F.bucketBytes p li = [] :=
  List.eq_nil_of_length_eq_zero (by rw [length_bucketBytes, F.bucketSize_empty h])

theorem total_bucketSize (lis : List (LinkedList (HTKeyValue V))) :
    total F.bucketSize lis =
      4 * (lis.flatMap LinkedList.payloads).length + total F.size (lis.flatMap LinkedList.payloads) := by
  induction lis with
  | nil => rfl
  | cons li lis ih =>
      rw [total_cons, ih, List.flatMap_cons, List.length_append, total_append, LinkedList.length_payloads, bucketSize]
      omega

theorem tableSize_eq (t : HashTable V) :
    F.tableSize t = 4 + 8 * t.numBuckets + 4 * t.numElements + total F.size t.pairs := by
  rw [tableSize, total_bucketSize, ← t.length_pairs]
  exact (Nat.add_assoc _ _ _).symm

end ElementFormat

def docFormat : ElementFormat Bytes where
  size kv := 10 + kv.value.length
  encode _ kv := (DoctableElementHeader.mk kv.key kv.value.length).toDisk ++ kv.value
  length_encode kv p := by simp

def positionsBytes (positions : List UInt64) : Bytes :=
  positions.flatMap fun position => (DocIDElementPosition.mk position.toUInt32).toDisk

theorem length_positionsBytes (positions : List UInt64) : (positionsBytes positions).length = 4 * positions.length := by
  induction positions with
  | nil => rfl
  | cons position positions ih =>
      rw [positionsBytes, List.flatMap_cons, List.length_append, DocIDElementPosition.length_toDisk, List.length_cons]
      rw [positionsBytes] at ih
      omega

def postingFormat : ElementFormat Postings where
  size kv := 12 + 4 * kv.value.numElements
  encode _ kv := (DocIDElementHeader.mk kv.key kv.value.numElements).toDisk ++ positionsBytes kv.value.payloads
  length_encode kv p := by simp [length_positionsBytes]

def wordFormat : ElementFormat WordPostings where
  size kv := 6 + kv.value.word.length + postingFormat.tableSize kv.value.postings
  encode off kv :=
    (WordPostingsHeader.mk kv.value.word.length (postingFormat.tableSize kv.value.postings)).toDisk ++
      (kv.value.word ++ postingFormat.tableBytes (off + 6 + kv.value.word.length) kv.value.postings)
  length_encode kv p := by
    simp only [List.length_append, WordPostingsHeader.length_toDisk, ElementFormat.length_tableBytes]
    omega

/-- The elements with the lengths that the 16-bit fields have room for. -/
def cutDocFormat : ElementFormat Bytes where
  size kv := 10 + (int16 kv.value.length).toNat
  encode _ kv := (DoctableElementHeader.mk kv.key (int16 kv.value.length)).toDisk ++
    kv.value.take (int16 kv.value.length).toNat
  length_encode kv p := by
    simp only [List.length_append, DoctableElementHeader.length_toDisk, List.length_take]
    have hle := toNat_int16_le kv.value.length
    omega

def cutWordFormat : ElementFormat WordPostings where
  size kv := 6 + (int16 kv.value.word.length).toNat + postingFormat.tableSize kv.value.postings
  encode off kv :=
    (WordPostingsHeader.mk (int16 kv.value.word.length) (postingFormat.tableSize kv.value.postings)).toDisk ++
      (kv.value.word.take (int16 kv.value.word.length).toNat ++
        postingFormat.tableBytes (off + 6 + (int16 kv.value.word.length).toNat) kv.value.postings)
  length_encode kv p := by
    simp only [List.length_append, WordPostingsHeader.length_toDisk, ElementFormat.length_tableBytes, List.length_take]
    have hle := toNat_int16_le kv.value.word.length
    omega

/-- The size of the file when all the lengths are the ones that the 16-bit
fields have room for. -/
def cutSize (mi : MemIndex) (dt : DocTable) : Nat :=
  16 + cutDocFormat.tableSize dt.idToName + cutWordFormat.tableSize mi

def tablesBytes (mi : MemIndex) (dt : DocTable) : Bytes :=
  docFormat.tableBytes 16 dt.idToName ++ wordFormat.tableBytes (16 + docFormat.tableSize dt.idToName) mi

def indexSize (mi : MemIndex) (dt : DocTable) : Nat :=
  16 + docFormat.tableSize dt.idToName + wordFormat.tableSize mi

theorem indexSize_eq (mi : MemIndex) (dt : DocTable) :
    indexSize mi dt = 16 + docFormat.tableSize dt.idToName + wordFormat.tableSize mi := (rfl)

def indexHeader (mi : MemIndex) (dt : DocTable) (checksum : UInt32) : IndexFileHeader :=
  ⟨kMagicNumber, checksum, docFormat.tableSize dt.idToName, wordFormat.tableSize mi⟩

theorem length_tablesBytes (mi : MemIndex) (dt : DocTable) : 16 + (tablesBytes mi dt).length = indexSize mi dt := by
  rw [tablesBytes, List.length_append, ElementFormat.length_tableBytes, ElementFormat.length_tableBytes, indexSize]
  omega

end SearchEngine
