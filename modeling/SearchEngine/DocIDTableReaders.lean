import SearchEngine.QueryProcessor
import SearchEngine.ReaderThreads
import SearchEngine.Library.Heap

/-! ProcessQuery with the DocIDTableReader objects that LookupWord makes for
it, and the queries for which it leaves one of them. -/

namespace SearchEngine.ReaderOwnership

open FileProgram OpenFile Program
open SharedStream (outcome)

/-- Each DocIDTableReader has a FILE* of its own, which its delete closes. -/
abbrev DocIDTableReaders := Heap HashTableReader

/-- The number is of the descriptors that the process may have open for these
readers. When they are all in use, the dup of FileDup fails. -/
def lookupWord (descriptors : Nat) (itr : HashTableReader) (word : Bytes) (heap : DocIDTableReaders) :
    FileProgram (Option Nat × DocIDTableReaders) := do
  match ← IndexTableReader.lookupWord itr word with
  | none => return (none, heap)
  | some didtr =>
      FileProgram.verify333 (heap.liveCount < descriptors)
      return (some heap.top, heap.malloc didtr)

def getDocIDList (heap : DocIDTableReaders) (didtr : Nat) : FileProgram (List DocIDElementHeader) :=
  match heap.load didtr, heap.frees didtr with
  | some r, 0 => DocIDTableReader.getDocIDList r
  | _, _ => .fail .badAccess

structure Candidates where
  isValid : Bool
  idList : List DocIDElementHeader

def intersectWords (descriptors : Nat) (itr : HashTableReader) :
    List Bytes → List DocIDElementHeader → DocIDTableReaders → FileProgram (Candidates × DocIDTableReaders)
  | [], idList, heap => return (⟨true, idList⟩, heap)
  | word :: query, idList, heap => do
      match ← lookupWord descriptors itr word heap with
      -- deleting a null pointer does nothing
      | (none, heap) => return (⟨false, idList⟩, heap)
      | (some currDocID, heap) =>
          let idListTmp ← getDocIDList heap currDocID
          let idList ← ofRun (QueryProcessor.mergeResult idList idListTmp)
          if idList.length = 0 then return (⟨true, idList⟩, heap)
          else intersectWords descriptors itr query idList (heap.free currDocID)

def queryIndex (descriptors : Nat) (dtr itr : HashTableReader) (word : Bytes) (query : List Bytes)
    (heap : DocIDTableReaders) : FileProgram (List QueryResult × DocIDTableReaders) := do
  match ← lookupWord descriptors itr word heap with
  | (none, heap) => return ([], heap)
  | (some currDidtr, heap) =>
      let idList ← getDocIDList heap currDidtr
      let (candidates, heap) ← intersectWords descriptors itr query idList heap
      let results ← if candidates.isValid then QueryProcessor.documentResults dtr candidates.idList else pure []
      return (results, heap.free currDidtr)

def queryIndices (descriptors : Nat) (word : Bytes) (query : List Bytes) :
    List IndexReaders → DocIDTableReaders → Run (List QueryResult × List IndexReaders × DocIDTableReaders)
  | [], heap => return ([], [], heap)
  | r :: readers, heap => do
      let ((results, heap), file) ← (queryIndex descriptors r.dtr r.itr word query heap).run OpenFile.handle r.file
      let (more, readers, heap) ← queryIndices descriptors word query readers heap
      return (results ++ more, { r with file := file } :: readers, heap)

structure Processor where
  readers : List IndexReaders
  heap : DocIDTableReaders

def processQuery (sorter : Sorter QueryResult.less) (descriptors : Nat) (qp : Processor) (query : List Bytes) :
    Run (Processor × List QueryResult) :=
  match query with
  | [] => .error .verify333
  | word :: query => do
      let (finalResult, readers, heap) ← queryIndices descriptors word query qp.readers qp.heap
      return (⟨readers, heap⟩, sorter.sort finalResult)

theorem only_bucketDocIDs (position : Int) (n j : Nat) : Only Reads (DocIDTableReader.bucketDocIDs position n j) := by
  induction n generalizing j with
  | zero => exact .pure _
  | succ n ih =>
      apply (only_fseekVerified _).bind
      intro _
      apply (only_freadVerified (by decide)).bind
      intro elementPos
      apply (only_fseekVerified _).bind
      intro _
      apply (only_freadVerified (by decide)).bind
      intro element
      apply (ih (j + 1)).bind
      intro rest
      exact .pure _

theorem only_tableDocIDs (offset : Int) (n i : Nat) : Only Reads (DocIDTableReader.tableDocIDs offset n i) := by
  induction n generalizing i with
  | zero => exact .pure _
  | succ n ih =>
      apply (only_fseekVerified _).bind
      intro _
      apply (only_freadVerified (by decide)).bind
      intro bucketRec
      apply (only_bucketDocIDs _ _ _).bind
      intro elements
      apply (ih (i + 1)).bind
      intro rest
      exact .pure _

theorem lookup_getDocIDList (image : FileImage) (r : HashTableReader) :
    Lookup image (DocIDTableReader.getDocIDList r) where
  reads := only_tableDocIDs _ _ _
  rewinds := by
    intro pos
    unfold DocIDTableReader.getDocIDList
    cases r.numBuckets.toNat with
    | zero => rfl
    | succ n =>
        simp only [outcome, DocIDTableReader.tableDocIDs, run_bind]
        by_cases hneg : 0 ≤ r.offset + BucketListHeader.sizeof + (0 : Nat) * BucketRecord.sizeof
        · rw [run_fseekVerified hneg, run_fseekVerified hneg]
        · rw [run_fseekVerified_neg hneg, run_fseekVerified_neg hneg]

theorem outcome_of_run {α : Type} {p : FileProgram α} {f f' : OpenFile} {a : α} (hp : Lookup f.image p)
    (h : p.run handle f = .ok (a, f')) : f'.image = f.image ∧ outcome f.image 0 p = .ok a := by
  obtain ⟨pos, rfl, hall⟩ := run_linked hp.reads h
  refine ⟨rfl, ?_⟩
  rw [← hp.rewinds f.pos, outcome, hall true]
  rfl

/-- The documents that the index in a file has for a word, if it has the
word. -/
def docIDs (image : FileImage) (itr : HashTableReader) (word : Bytes) : Run (Option (List UInt64)) := do
  match ← outcome image 0 (IndexTableReader.lookupWord itr word) with
  | none => return none
  | some didtr =>
      let idList ← outcome image 0 (DocIDTableReader.getDocIDList didtr)
      return some (idList.map DocIDElementHeader.docId)

section

variable (image : FileImage) (itr : HashTableReader)

def Indexed (word : Bytes) : Prop := ∃ ids, docIDs image itr word = .ok (some ids)

def Has (docId : UInt64) (word : Bytes) : Prop := ∃ ids, docIDs image itr word = .ok (some ids) ∧ docId ∈ ids

/-- The query begins with words, more than one, that are all in the index, but
not together in one document. -/
def RunsDry (query : List Bytes) : Prop :=
  ∃ words, words <+: query ∧ 2 ≤ words.length ∧ (∀ word ∈ words, Indexed image itr word) ∧
    ∀ docId, ∃ word ∈ words, ¬Has image itr docId word

/-- The same for the words that follow, from the documents that are left. -/
def LeavesNone (query : List Bytes) (ids : List UInt64) : Prop :=
  ∃ words, words <+: query ∧ words ≠ [] ∧ (∀ word ∈ words, Indexed image itr word) ∧
    ∀ docId ∈ ids, ∃ word ∈ words, ¬Has image itr docId word

end

section

variable {image : FileImage} {itr : HashTableReader} {word : Bytes} {query : List Bytes} {ids : List UInt64}

theorem has_iff (h : docIDs image itr word = .ok (some ids)) (docId : UInt64) :
    Has image itr docId word ↔ docId ∈ ids := by
  simp [Has, h]

theorem not_leavesNone_nil (ids : List UInt64) : ¬LeavesNone image itr [] ids := by
  rintro ⟨words, hleading, hne, _⟩
  exact hne (List.prefix_nil.mp hleading)

theorem not_leavesNone_cons (h : ¬Indexed image itr word) (ids : List UInt64) :
    ¬LeavesNone image itr (word :: query) ids := by
  rintro ⟨words, hleading, hne, hindexed, _⟩
  obtain ⟨w, words, rfl⟩ := List.exists_cons_of_ne_nil hne
  obtain ⟨rfl, _⟩ := List.cons_prefix_cons.mp hleading
  exact h (hindexed w List.mem_cons_self)

theorem leavesNone_cons (h : docIDs image itr word = .ok (some ids)) (left : List UInt64) :
    LeavesNone image itr (word :: query) left ↔
      left.filter (· ∈ ids) = [] ∨ LeavesNone image itr query (left.filter (· ∈ ids)) := by
  have hword : Indexed image itr word := ⟨ids, h⟩
  constructor
  · rintro ⟨words, hleading, hne, hindexed, hnone⟩
    obtain ⟨w, words, rfl⟩ := List.exists_cons_of_ne_nil hne
    obtain ⟨rfl, htail⟩ := List.cons_prefix_cons.mp hleading
    have hrest : ∀ docId ∈ left.filter (· ∈ ids), ∃ word ∈ words, ¬Has image itr docId word := by
      intro docId hdoc
      obtain ⟨hmem, hids⟩ := List.mem_filter.mp hdoc
      obtain ⟨word, hw, hlacks⟩ := hnone docId hmem
      rcases List.mem_cons.mp hw with rfl | hw
      · exact absurd ((has_iff h docId).mpr (of_decide_eq_true hids)) hlacks
      · exact ⟨word, hw, hlacks⟩
    cases words with
    | nil =>
        left
        apply List.eq_nil_iff_forall_not_mem.mpr
        intro docId hdoc
        obtain ⟨word, hw, _⟩ := hrest docId hdoc
        cases hw
    | cons w' words => exact .inr ⟨w' :: words, htail, by simp, fun v hv => hindexed v (by simp [hv]), hrest⟩
  · have hlacks (docId : UInt64) (hdoc : docId ∉ ids) : ¬Has image itr docId word := by rwa [has_iff h]
    rintro (hempty | ⟨words, hleading, _, hindexed, hnone⟩)
    · refine ⟨[word], List.cons_prefix_cons.mpr ⟨rfl, List.nil_prefix⟩, by simp, by simpa using hword, ?_⟩
      intro docId hdoc
      refine ⟨word, by simp, hlacks docId ?_⟩
      intro hids
      have hmem : docId ∈ left.filter (· ∈ ids) := List.mem_filter.mpr ⟨hdoc, decide_eq_true hids⟩
      rw [hempty] at hmem
      cases hmem
    · refine ⟨word :: words, List.cons_prefix_cons.mpr ⟨rfl, hleading⟩, by simp, ?_, ?_⟩
      · intro w hw
        rcases List.mem_cons.mp hw with rfl | hw
        · exact hword
        · exact hindexed w hw
      · intro docId hdoc
        by_cases hids : docId ∈ ids
        · obtain ⟨w, hw, hlack⟩ := hnone docId (List.mem_filter.mpr ⟨hdoc, decide_eq_true hids⟩)
          exact ⟨w, by simp [hw], hlack⟩
        · exact ⟨word, by simp, hlacks docId hids⟩

theorem not_runsDry_cons (h : ¬Indexed image itr word) : ¬RunsDry image itr (word :: query) := by
  rintro ⟨words, hleading, hlen, hindexed, _⟩
  cases words with
  | nil => simp at hlen
  | cons w words =>
      obtain ⟨rfl, _⟩ := List.cons_prefix_cons.mp hleading
      exact h (hindexed w List.mem_cons_self)

theorem runsDry_cons (h : docIDs image itr word = .ok (some ids)) :
    RunsDry image itr (word :: query) ↔ LeavesNone image itr query ids := by
  constructor
  · rintro ⟨words, hleading, hlen, hindexed, hnone⟩
    obtain ⟨w, words, rfl⟩ := List.exists_cons_of_length_pos (Nat.lt_of_lt_of_le Nat.zero_lt_two hlen)
    obtain ⟨rfl, htail⟩ := List.cons_prefix_cons.mp hleading
    refine ⟨words, htail, ?_, fun v hv => hindexed v (by simp [hv]), ?_⟩
    · rintro rfl
      simp at hlen
    · intro docId hdoc
      obtain ⟨v, hv, hlacks⟩ := hnone docId
      rcases List.mem_cons.mp hv with rfl | hv
      · exact absurd ((has_iff h docId).mpr hdoc) hlacks
      · exact ⟨v, hv, hlacks⟩
  · rintro ⟨words, hleading, hne, hindexed, hnone⟩
    refine ⟨word :: words, List.cons_prefix_cons.mpr ⟨rfl, hleading⟩, ?_, ?_, ?_⟩
    · have := List.length_pos_iff.mpr hne
      rw [List.length_cons]
      omega
    · intro v hv
      rcases List.mem_cons.mp hv with rfl | hv
      · exact ⟨ids, h⟩
      · exact hindexed v hv
    · intro docId
      by_cases hdoc : docId ∈ ids
      · obtain ⟨v, hv, hlacks⟩ := hnone docId hdoc
        exact ⟨v, by simp [hv], hlacks⟩
      · exact ⟨word, by simp, by rwa [has_iff h]⟩

end

section

variable (image : FileImage) (itr : HashTableReader)

instance (word : Bytes) : Decidable (Indexed image itr word) :=
  match h : docIDs image itr word with
  | .ok (some ids) => isTrue ⟨ids, h⟩
  | .ok none => isFalse (by simp [Indexed, h])
  | .error _ => isFalse (by simp [Indexed, h])

instance decidableLeavesNone : (query : List Bytes) → (left : List UInt64) → Decidable (LeavesNone image itr query left)
  | [], left => isFalse (not_leavesNone_nil left)
  | word :: query, left =>
      match h : docIDs image itr word with
      | .ok (some ids) =>
          have := decidableLeavesNone query (left.filter (· ∈ ids))
          decidable_of_iff _ (leavesNone_cons h left).symm
      | .ok none => isFalse (not_leavesNone_cons (by simp [Indexed, h]) left)
      | .error _ => isFalse (not_leavesNone_cons (by simp [Indexed, h]) left)

instance (query : List Bytes) : Decidable (RunsDry image itr query) :=
  match query with
  | [] => isFalse (by rintro ⟨words, hleading, hlen, _⟩; rw [List.prefix_nil.mp hleading] at hlen; simp at hlen)
  | word :: query =>
      match h : docIDs image itr word with
      | .ok (some ids) => decidable_of_iff _ (runsDry_cons h).symm
      | .ok none => isFalse (not_runsDry_cons (by simp [Indexed, h]))
      | .error _ => isFalse (not_runsDry_cons (by simp [Indexed, h]))

end

/-- A query in the index of one file. -/
structure Visit where
  image : FileImage
  itr : HashTableReader
  query : List Bytes

namespace Visit

/-- The readers that are open at once for it: those of the first two words, as
far as the index has them. -/
def opens (v : Visit) : Nat := ((v.query.take 2).takeWhile fun word => Indexed v.image v.itr word).length

/-- The readers that are not deleted after it. -/
def leaves (v : Visit) : Nat := if RunsDry v.image v.itr v.query then 1 else 0

theorem opens_cons_of_not {image : FileImage} {itr : HashTableReader} {word : Bytes} (h : ¬Indexed image itr word)
    (query : List Bytes) : opens ⟨image, itr, word :: query⟩ = 0 := by
  simp [opens, h]

theorem opens_cons {image : FileImage} {itr : HashTableReader} {word : Bytes} (h : Indexed image itr word)
    (query : List Bytes) :
    opens ⟨image, itr, word :: query⟩ = 1 + ((query.take 1).takeWhile fun word => Indexed image itr word).length := by
  simp [opens, h, Nat.add_comm]

theorem leaves_eq_zero {v : Visit} : v.leaves = 0 ↔ ¬RunsDry v.image v.itr v.query := by
  rw [leaves]
  split <;> simp [*]

end Visit

def visit (query : List Bytes) (r : IndexReaders) : Visit := ⟨r.file.image, r.itr, query⟩

/-- What a session of queries goes through. -/
def visits (readers : List IndexReaders) (queries : List (List Bytes)) : List Visit :=
  queries.flatMap fun query => readers.map (visit query)

end SearchEngine.ReaderOwnership
