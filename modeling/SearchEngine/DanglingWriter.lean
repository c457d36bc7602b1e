import SearchEngine.DanglingIndex
import SearchEngine.WriteIndex

/-! WriteIndex over the lists of LinkedList.c. -/

namespace SearchEngine.DanglingWriteIndex

open Program FileProgram DanglingList
open WriteIndex (kFailedWrite WriteElementFn fwriteChars writeHTBucketRecord writeDocidToDocnameFn writeHeader abandon)

variable {V : Type}

/-- The loop of WriteHTBucket: LLIterator_Get reads the node between the two
writes for its element. -/
def writeElements (fn : WriteElementFn V) : List (BlockNode (HTKeyValue V)) → Int → Int → FileProgram (Option Int)
  | [], _, elementPos => return some elementPos
  | n :: rest, recordPos, elementPos => do
      if !(← fseek recordPos) then return none
      if !(← fwrite (ElementPositionRecord.mk elementPos).toDisk) then return none
      let payload ← ofRun (follow n)
      let elementBytes ← fn elementPos payload
      if elementBytes < 0 then return none
      let elementPos ← addInt elementPos elementBytes
      writeElements fn rest (int32 (recordPos + ElementPositionRecord.sizeof)) elementPos

def writeHTBucket (fn : WriteElementFn V) (offset : Int) (li : DanglingList (HTKeyValue V)) : FileProgram Int := do
  let numElts := li.numElements
  if numElts = 0 then return 0
  match ← writeElements fn li.nodes offset (int32 (offset + ElementPositionRecord.sizeof * numElts)) with
  | none => return kFailedWrite
  | some elementPos => addInt elementPos (-offset)

def writeBuckets (fn : WriteElementFn V) : List (DanglingList (HTKeyValue V)) → Int → Int → FileProgram (Option Int)
  | [], _, bucketPos => return some bucketPos
  | li :: rest, recordPos, bucketPos => do
      let recordBytes ← writeHTBucketRecord recordPos li.numElements bucketPos
      if recordBytes = kFailedWrite then return none
      let recordPos ← addInt recordPos recordBytes
      if li.numElements = 0 then writeBuckets fn rest recordPos bucketPos
      else
        let bucketBytes ← writeHTBucket fn bucketPos li
        if bucketBytes = kFailedWrite then return none
        let bucketPos ← addInt bucketPos bucketBytes
        writeBuckets fn rest recordPos bucketPos

def writeHashTable (fn : WriteElementFn V) (offset : Int) (ht : DanglingTable V) : FileProgram Int := do
  if !(← fseek offset) then return kFailedWrite
  if !(← fwrite (BucketListHeader.mk ht.numBuckets).toDisk) then return kFailedWrite
  let recordPos := int32 (offset + BucketListHeader.sizeof)
  let bucketPos := int32 (offset + BucketListHeader.sizeof + ht.numBuckets * BucketRecord.sizeof)
  match ← writeBuckets fn ht.buckets recordPos bucketPos with
  | none => return kFailedWrite
  | some bucketPos => addInt bucketPos (-offset)

def writePositions : List (BlockNode UInt64) → FileProgram Bool
  | [] => return true
  | n :: rest => do
      let position ← ofRun (follow n)
      if !(← fwrite (DocIDElementPosition.mk position.toUInt32).toDisk) then return false
      writePositions rest

def writeDocIDToPositionListFn : WriteElementFn (DanglingList UInt64) := fun offset kv => do
  let numPositions := kv.value.numElements
  if !(← fseek offset) then return kFailedWrite
  if !(← fwrite (DocIDElementHeader.mk kv.key numPositions).toDisk) then return kFailedWrite
  if !(← writePositions kv.value.nodes) then return kFailedWrite
  return int32 (DocIDElementHeader.sizeof + numPositions * DocIDElementPosition.sizeof)

def writeWordToPostingsFn : WriteElementFn DanglingWordPostings := fun offset kv => do
  let wp := kv.value
  let wordBytes := int16 wp.word.length
  let htBytes ← writeHashTable writeDocIDToPositionListFn (int32 (offset + WordPostingsHeader.sizeof + wordBytes))
    wp.postings
  if htBytes = kFailedWrite then return kFailedWrite
  if !(← fseek offset) then return kFailedWrite
  if !(← fwrite (WordPostingsHeader.mk wordBytes htBytes).toDisk) then return kFailedWrite
  if !(← fseek (offset + WordPostingsHeader.sizeof)) then return kFailedWrite
  if !(← fwriteChars wp.word wordBytes) then return kFailedWrite
  return int32 (WordPostingsHeader.sizeof + wordBytes + htBytes)

def writeIndex (mi : DanglingMemIndex) (dt : DanglingDocTable) : FileProgram Int := do
  if !(← succeeds .create) then return kFailedWrite
  let curPos : Int := IndexFileHeader.sizeof
  let dtBytes ← writeHashTable writeDocidToDocnameFn curPos dt.idToName
  if dtBytes = kFailedWrite then return ← abandon
  let curPos ← addInt curPos dtBytes
  let miBytes ← writeHashTable writeWordToPostingsFn curPos mi
  if miBytes = kFailedWrite then return ← abandon
  let curPos ← addInt curPos miBytes
  if (← writeHeader dtBytes miBytes) = kFailedWrite then return ← abandon
  let _ ← succeeds .close
  return curPos

section

variable {σ : Type} {handle : FileOp → σ → FileReply × σ}

theorem writeElements_freed {ns : List (BlockNode (HTKeyValue V))} (hall : ∀ n ∈ ns, n.live = false) (hne : ns ≠ [])
    (fn : WriteElementFn V) (recordPos elementPos : Int) :
    Ensures handle (writeElements fn ns recordPos elementPos) (· = none) := by
  obtain ⟨n, rest, rfl⟩ := List.exists_cons_of_ne_nil hne
  rw [writeElements]
  apply (Ensures.any _).bind
  intro sought _
  apply Ensures.ite
  · exact .pure rfl
  · apply (Ensures.any _).bind
    intro written _
    apply Ensures.ite
    · exact .pure rfl
    · rw [follow_freed (hall n (by simp))]
      constructor
      intro s r s' hrun
      cases hrun

theorem writeHTBucket_freed {li : DanglingList (HTKeyValue V)} (h : li.AllFreed) (hne : li.nodes ≠ [])
    (fn : WriteElementFn V) (offset : Int) : Ensures handle (writeHTBucket fn offset li) (· = kFailedWrite) := by
  have hnum : li.numElements ≠ 0 := fun hz => hne (List.eq_nil_of_length_eq_zero hz)
  rw [writeHTBucket, if_neg hnum]
  apply (writeElements_freed h hne fn _ _).bind
  rintro _ rfl
  exact .pure rfl

/-- A bucket with an element is not written. -/
theorem writeBuckets_freed {cs : List (DanglingList (HTKeyValue V))} (hall : ∀ c ∈ cs, c.AllFreed)
    (hne : ∃ c ∈ cs, c.nodes ≠ []) (fn : WriteElementFn V) (recordPos bucketPos : Int) :
    Ensures handle (writeBuckets fn cs recordPos bucketPos) (· = none) := by
  induction cs generalizing recordPos bucketPos with
  | nil => simp at hne
  | cons c cs ih =>
      rw [writeBuckets]
      apply (Ensures.any _).bind
      intro recordBytes _
      apply Ensures.ite
      · exact .pure rfl
      · apply (Ensures.any _).bind
        intro recordPos' _
        split
        · next hz =>
          have hnil : c.nodes = [] := List.eq_nil_of_length_eq_zero hz
          refine ih (fun d hd => hall d (by simp [hd])) ?_ _ _
          simpa [hnil] using hne
        · next hz =>
          have hfull : c.nodes ≠ [] := fun hnil => hz (by rw [DanglingList.numElements, hnil, List.length_nil])
          apply (writeHTBucket_freed (hall c (by simp)) hfull fn _).bind
          rintro _ rfl
          exact .pure rfl

theorem writeHashTable_freed {ht : DanglingTable V} (h : ht.Freed) (hne : ht.numElements ≠ 0) (fn : WriteElementFn V)
    (offset : Int) : Ensures handle (writeHashTable fn offset ht) (· = kFailedWrite) := by
  have hfull : ∃ c ∈ ht.buckets, c.nodes ≠ [] := by
    rw [Ne, h.empty_iff] at hne
    push Not at hne
    exact hne
  rw [writeHashTable]
  apply (Ensures.any _).bind
  intro sought _
  apply Ensures.ite
  · exact .pure rfl
  · apply (Ensures.any _).bind
    intro written _
    apply Ensures.ite
    · exact .pure rfl
    · apply (writeBuckets_freed h.nodes hfull fn _ _).bind
      rintro _ rfl
      exact .pure rfl

/-- A table with a document is never written, whatever the file operations do:
WriteIndex fails, or it ends at a freed node. -/
theorem writeIndex_fails {names : List Bytes} {dt : DanglingDocTable} (hbuild : DanglingDocTable.build names = .ok dt)
    (hne : names ≠ []) (mi : DanglingMemIndex) : Ensures handle (writeIndex mi dt) (· = kFailedWrite) := by
  obtain ⟨h, hcount⟩ := DanglingDocTable.build_freed hbuild
  have hfull : dt.idToName.numElements ≠ 0 := by
    rw [hcount]
    exact fun hz => hne (List.eq_nil_of_length_eq_zero hz)
  rw [writeIndex]
  apply (Ensures.any _).bind
  intro created _
  apply Ensures.ite
  · exact .pure rfl
  · apply (writeHashTable_freed h.idToName hfull writeDocidToDocnameFn _).bind
    rintro _ rfl
    rw [if_pos rfl]
    apply (Ensures.any _).bind
    intro closed _
    apply (Ensures.any _).bind
    intro unlinked _
    exact .pure rfl

end

/-- The index of one document with one word is not written, and neither of its
tables could be: the loop over each ends at a freed node. -/
theorem writeIndex_reads_freed : ∃ dt mi, DanglingDocTable.build [[100]] = .ok dt ∧
    DanglingMemIndex.build [⟨[97], 1, LinkedList.allocate.append 0⟩] = .ok mi ∧
    (writeIndex mi dt).run OpenFile.handle ⟨.empty, 0, false⟩ = .error .badAccess ∧
    (writeHashTable writeWordToPostingsFn 16 mi).run OpenFile.handle ⟨.empty, 0, false⟩ = .error .badAccess := by
  have hback : (DanglingDocTable.build [[100]]).fault = none := by decide +kernel
  obtain ⟨dt, hdt⟩ := Run.eq_ok hback
  obtain ⟨mi, hmi, _⟩ := DanglingMemIndex.build_built [⟨[97], 1, LinkedList.allocate.append 0⟩]
  have hindex : (do
      let dt ← DanglingDocTable.build [[100]]
      let mi ← DanglingMemIndex.build [⟨[97], 1, LinkedList.allocate.append 0⟩]
      (writeIndex mi dt).run OpenFile.handle ⟨.empty, 0, false⟩).fault = some .badAccess := by decide +kernel
  have htable : (do
      let mi ← DanglingMemIndex.build [⟨[97], 1, LinkedList.allocate.append 0⟩]
      (writeHashTable writeWordToPostingsFn 16 mi).run OpenFile.handle ⟨.empty, 0, false⟩).fault =
        some .badAccess := by
    decide +kernel
  rw [hdt, Run.ok_bind, hmi, Run.ok_bind] at hindex
  rw [hmi, Run.ok_bind] at htable
  exact ⟨dt, mi, hdt, hmi, Run.eq_error hindex, Run.eq_error htable⟩

end SearchEngine.DanglingWriteIndex
