import SearchEngine.DanglingTable
import SearchEngine.DocTableRuns
import SearchEngine.MemSearch

/-! The document table and the index over the lists of LinkedList.c. -/

namespace SearchEngine

open DanglingTable DanglingList

structure DanglingDocTable where
  idToName : DanglingTable Bytes
  nameToId : DanglingTable UInt64
  maxId : UInt64

namespace DanglingDocTable

open DocTable (HASHTABLE_INITIAL_NUM_BUCKETS INVALID_DOCID)

def allocate : Run DanglingDocTable := do
  let idToName ← DanglingTable.allocate HASHTABLE_INITIAL_NUM_BUCKETS
  let nameToId ← DanglingTable.allocate HASHTABLE_INITIAL_NUM_BUCKETS
  return ⟨idToName, nameToId, 1⟩

def add (table : DanglingDocTable) (docName : Bytes) : Run (DanglingDocTable × UInt64) := do
  match ← table.nameToId.find (hashString docName) with
  | some kv => return (table, kv.value)
  | none =>
      let docId := table.maxId
      let (idToName, _) ← table.idToName.insert ⟨docId, docName⟩
      let (nameToId, _) ← table.nameToId.insert ⟨hashString docName, docId⟩
      return (⟨idToName, nameToId, table.maxId + 1⟩, docId)

def getDocID (table : DanglingDocTable) (docName : Bytes) : Run UInt64 := do
  match ← table.nameToId.find (hashString docName) with
  | some kv => return kv.value
  | none => return INVALID_DOCID

def getDocName (table : DanglingDocTable) (docId : UInt64) : Run (Option Bytes) := do
  verify333 (docId ≠ INVALID_DOCID)
  let found ← table.idToName.find docId
  return found.map HTKeyValue.value

def build (names : List Bytes) : Run DanglingDocTable := do
  let table ← allocate
  names.foldlM (fun table name => do
    let (table, _) ← table.add name
    return table) table

structure Freed (table : DanglingDocTable) : Prop where
  idToName : table.idToName.Freed
  nameToId : table.nameToId.Freed

theorem allocate_freed : ∃ table, allocate = .ok table ∧ table.Freed ∧ table.idToName.numElements = 0 ∧
    table.nameToId.numElements = 0 := by
  obtain ⟨idToName, hid, hidFreed, hidZero, _⟩ :=
    DanglingTable.allocate_freed (V := Bytes) (n := HASHTABLE_INITIAL_NUM_BUCKETS) (by decide)
  obtain ⟨nameToId, hname, hnameFreed, hnameZero, _⟩ :=
    DanglingTable.allocate_freed (V := UInt64) (n := HASHTABLE_INITIAL_NUM_BUCKETS) (by decide)
  exact ⟨⟨idToName, nameToId, 1⟩, by simp only [allocate, hid, hname, Run.ok_bind, Run.pure_eq_ok],
    ⟨hidFreed, hnameFreed⟩, hidZero, hnameZero⟩

section

variable {table table' : DanglingDocTable} {name : Bytes} {docId : UInt64}

/-- An addition that comes back has put a new name into an empty chain. -/
theorem add_freed (h : table.Freed) (hadd : table.add name = .ok (table', docId)) :
    table'.Freed ∧ table'.idToName.numElements = table.idToName.numElements + 1 := by
  simp only [add, h.nameToId.find] at hadd
  by_cases hnil : (table.nameToId.chain (hashString name)).nodes = []
  · simp only [hnil, if_true, Run.ok_bind] at hadd
    obtain ⟨⟨idToName, old⟩, hid, hadd⟩ := Run.bind_eq_ok.mp hadd
    obtain ⟨⟨nameToId, old'⟩, hname, hadd⟩ := Run.bind_eq_ok.mp hadd
    obtain ⟨rfl, _⟩ : (⟨idToName, nameToId, table.maxId + 1⟩ : DanglingDocTable) = table' ∧ table.maxId = docId := by
      simpa using hadd
    obtain ⟨hid', hcount⟩ := insert_freed h.idToName hid
    exact ⟨⟨hid', (insert_freed h.nameToId hname).1⟩, hcount⟩
  · simp only [hnil, if_false, Run.error_bind] at hadd
    cases hadd

end

theorem build_freed {table : DanglingDocTable} {names : List Bytes} (hbuild : build names = .ok table) :
    table.Freed ∧ table.idToName.numElements = names.length := by
  obtain ⟨table₀, halloc, hfreed, hzero, _⟩ := allocate_freed
  rw [build, halloc, Run.ok_bind] at hbuild
  have hgrows := Run.foldlM_grows (n := fun table => table.idToName.numElements) ?_ hfreed hbuild
  · rwa [hzero, Nat.zero_add] at hgrows
  · intro table₁ table₂ name h₁ hone
    obtain ⟨⟨table₃, docId⟩, hadd, hret⟩ := Run.bind_eq_ok.mp hone
    obtain rfl : table₃ = table₂ := by simpa using hret
    exact add_freed h₁ hadd

/-- Two calls with an answer other than the bijection's: the ID 0, which ends
the program, and a name that is added again after another one, for which a
freed node is read. -/
theorem docTable_not_bijection :
    (¬∀ (table : DocTable) (docId : UInt64), DocTable.allocate = .ok table → table.getDocName docId = .ok none) ∧
      build [[100], [101], [100]] = .error .badAccess :=
  ⟨DocTable.getDocName_invalid, Run.eq_error (by decide +kernel)⟩

end DanglingDocTable

structure DanglingWordPostings where
  word : Bytes
  postings : DanglingTable (DanglingList UInt64)

abbrev DanglingMemIndex := DanglingTable DanglingWordPostings

namespace DanglingMemIndex

open MemIndex (initBuckets searchResultComparator)

def allocate : Run DanglingMemIndex := DanglingTable.allocate initBuckets

def findOrInsertWord (index : DanglingMemIndex) (word : Bytes) : Run (DanglingMemIndex × DanglingWordPostings) := do
  let key := hashString word
  match ← index.find key with
  | none =>
      let wp : DanglingWordPostings := ⟨word, ← DanglingTable.allocate initBuckets⟩
      let (index, _) ← index.insert ⟨key, wp⟩
      return (index, wp)
  | some kv =>
      verify333 (kv.value.word = word)
      return (index, kv.value)

def addPostingList (index : DanglingMemIndex) (word : Bytes) (docId : DocID) (postings : DanglingList UInt64) :
    Run DanglingMemIndex := do
  let (index, wp) ← index.findOrInsertWord word
  let found ← wp.postings.find docId
  verify333 found.isNone
  let (table, _) ← wp.postings.insert ⟨docId, postings⟩
  return index.storeValue (hashString word) ⟨wp.word, table⟩

/-- A posting list that the caller made with LinkedList_Push, whose nodes are
all there. -/
def given (postings : Postings) : DanglingList UInt64 := ⟨postings.payloads.map fun p => ⟨p, true⟩⟩

def build (adds : List Posting) : Run DanglingMemIndex := do
  let index ← allocate
  adds.foldlM (fun index a => index.addPostingList a.word a.docId (given a.postings)) index

/-- The loop over the results for one more query word: each is read through
the iterator, and kept with its new rank or removed. -/
def intersectResults (postings : DanglingTable (DanglingList UInt64)) (retList : DanglingList SearchResult) :
    Run (DanglingList SearchResult) := do
  let nodes ← retList.nodes.filterMapM fun n => do
    let sr ← follow n
    match ← postings.find sr.docId with
    | some kv => return some ⟨⟨sr.docId, ← intAdd sr.rank kv.value.numElements⟩, n.live⟩
    | none => return none
  return ⟨nodes⟩

def searchRest (index : DanglingMemIndex) :
    List Bytes → DanglingList SearchResult → Run (Option (DanglingList SearchResult))
  | [], retList => return some retList
  | word :: query, retList => do
      match ← index.find (hashString word) with
      | none => return none
      | some kv =>
          let retList ← intersectResults kv.value.postings retList
          if retList.numElements = 0 then return none else searchRest index query retList

def search (index : DanglingMemIndex) : List Bytes → Run (Option (DanglingList SearchResult))
  | [] => return none
  | word :: query => do
      match ← index.find (hashString word) with
      | none => return none
      | some kv =>
          let retList ← kv.value.postings.walk (fun retList kv => retList.append ⟨kv.key, kv.value.numElements⟩)
            DanglingList.allocate
          match ← searchRest index query retList with
          | none => return none
          | some retList => return some (← retList.sort false searchResultComparator)

def bucketOf (word : Bytes) : Nat := (hashString word).toNat % 16

/-- The index after additions that came back: each went into an empty chain of
the sixteen. -/
structure Built (index : DanglingMemIndex) (taken : List Nat) : Prop where
  freed : index.Freed
  buckets : index.numBuckets = 16
  count : index.numElements = taken.length
  distinct : taken.Nodup
  small : ∀ b ∈ taken, b < 16
  chains : ∀ key, (index.chain key).nodes = [] ↔ key.toNat % 16 ∉ taken

theorem allocate_built : ∃ index, allocate = .ok index ∧ Built index [] := by
  obtain ⟨index, halloc, hfreed, hzero, hbuckets, hnil⟩ :=
    DanglingTable.allocate_freed (V := DanglingWordPostings) (n := initBuckets) (by decide)
  exact ⟨index, halloc, hfreed, hbuckets, hzero, List.nodup_nil, by simp, by simp [hnil]⟩

section

variable {index : DanglingMemIndex} {taken : List Nat} {word : Bytes} {docId : DocID} {postings : DanglingList UInt64}

theorem Built.length_le (h : Built index taken) : taken.length ≤ 16 := by
  have hsub : taken ⊆ List.range 16 := fun b hb => List.mem_range.mpr (h.small b hb)
  simpa using (List.subperm_of_subset h.distinct hsub).length_le

theorem addPostingList_taken (h : Built index taken) (hmem : bucketOf word ∈ taken) :
    index.addPostingList word docId postings = .error .badAccess := by
  have hne : (index.chain (hashString word)).nodes ≠ [] := fun he => (h.chains _).mp he hmem
  simp only [addPostingList, findOrInsertWord, h.freed.find, if_neg hne, Run.error_bind]

theorem addPostingList_new (docId : DocID) (postings : DanglingList UInt64) (h : Built index taken)
    (hnew : bucketOf word ∉ taken) :
    ∃ index', index.addPostingList word docId postings = .ok index' ∧ Built index' (taken ++ [bucketOf word]) := by
  have hnil := (h.chains (hashString word)).mpr hnew
  have hle := h.length_le
  obtain ⟨table, halloc, hfreed, hzero, hbuckets, hempty⟩ :=
    DanglingTable.allocate_freed (V := DanglingList UInt64) (n := initBuckets) (by decide)
  have hnum : table.numBuckets = 16 := hbuckets
  have hins := insert_new ⟨hashString word, (⟨word, table⟩ : DanglingWordPostings)⟩ h.freed
    (by rw [h.count, h.buckets]; omega) (by rw [h.buckets]; decide) hnil
  have hins' := insert_new ⟨docId, postings⟩ hfreed (by rw [hzero, hnum]; decide) (by rw [hnum]; decide)
    (hempty docId)
  have hadded := h.freed.addPair ⟨hashString word, (⟨word, table⟩ : DanglingWordPostings)⟩ hnil
  refine ⟨_, ?_, hadded.storeValue (hashString word)
    ⟨word, table.setChain docId ⟨[⟨⟨docId, postings⟩, false⟩]⟩ (table.numElements + 1)⟩, h.buckets, ?_, ?_, ?_, ?_⟩
  · simp only [addPostingList, findOrInsertWord, h.freed.find, hnil, if_true, Run.ok_bind, halloc, hins,
      Run.pure_eq_ok, hfreed.find, hempty, Option.isNone_none, verify333_true, hins']
  · rw [List.length_append, ← h.count]
    rfl
  · exact List.nodup_append.mpr ⟨h.distinct, by simp, fun a ha b hb he => hnew (List.mem_singleton.mp hb ▸ he ▸ ha)⟩
  · intro b hb
    rcases List.mem_append.mp hb with hb | hb
    · exact h.small b hb
    · rw [List.mem_singleton.mp hb]
      exact Nat.mod_lt _ (by decide)
  · intro key
    rw [chain_storeValue hadded, chain_setChain h.freed, List.mem_append, List.mem_singleton, hashKeyToBucketNum,
      hashKeyToBucketNum, h.buckets]
    split
    · next he => simp [← he, bucketOf]
    · next hne =>
      rw [h.chains, not_or]
      exact (and_iff_left fun he => hne he.symm).symm

theorem addAll_built (h : Built index taken) (adds : List Posting) :
    if (taken ++ adds.map fun a => bucketOf a.word).Nodup then
      ∃ index', adds.foldlM (fun index a => index.addPostingList a.word a.docId (given a.postings)) index = .ok index' ∧
        Built index' (taken ++ adds.map fun a => bucketOf a.word)
    else
      adds.foldlM (fun index a => index.addPostingList a.word a.docId (given a.postings)) index =
        .error .badAccess := by
  induction adds generalizing index taken with
  | nil =>
      rw [List.map_nil, List.append_nil, if_pos h.distinct]
      exact ⟨index, rfl, h⟩
  | cons a adds ih =>
      by_cases hmem : bucketOf a.word ∈ taken
      · have hnot : ¬(taken ++ (a :: adds).map fun a => bucketOf a.word).Nodup := by
          intro hd
          exact (List.nodup_append.mp hd).2.2 _ hmem _ (by simp) rfl
        rw [if_neg hnot, List.foldlM_cons, addPostingList_taken h hmem, Run.error_bind]
      · obtain ⟨index₁, hadd, h₁⟩ := addPostingList_new a.docId (given a.postings) h hmem
        have hrest := ih h₁
        rw [List.append_assoc] at hrest
        rw [List.foldlM_cons, hadd, Run.ok_bind]
        exact hrest

end

theorem build_built (adds : List Posting) :
    if (adds.map fun a => bucketOf a.word).Nodup then
      ∃ index, build adds = .ok index ∧ Built index (adds.map fun a => bucketOf a.word)
    else build adds = .error .badAccess := by
  obtain ⟨index, halloc, h⟩ := allocate_built
  rw [build, halloc, Run.ok_bind]
  exact addAll_built h adds

/-- A search comes back only when it finds nothing, in an empty chain. -/
theorem search_built {index : DanglingMemIndex} {taken : List Nat} (h : Built index taken) (word : Bytes)
    (query : List Bytes) :
    index.search (word :: query) = if bucketOf word ∈ taken then .error .badAccess else .ok none := by
  rw [search, h.freed.find]
  by_cases hmem : bucketOf word ∈ taken
  · have hne : (index.chain (hashString word)).nodes ≠ [] := fun he => (h.chains _).mp he hmem
    rw [if_neg hne, if_pos hmem, Run.error_bind]
  · have hnil := (h.chains (hashString word)).mpr hmem
    rw [if_pos hnil, if_neg hmem, Run.ok_bind]
    rfl

theorem search_finds_nothing {adds : List Posting} {index : DanglingMemIndex} {word : Bytes} {query : List Bytes}
    {found : Option (DanglingList SearchResult)} (hbuild : build adds = .ok index)
    (hsearch : index.search (word :: query) = .ok found) : found = none := by
  have hbuilt := build_built adds
  split at hbuilt
  · obtain ⟨index', hrun, h⟩ := hbuilt
    rw [hbuild] at hrun
    obtain rfl := Except.ok.inj hrun
    rw [search_built h] at hsearch
    split at hsearch
    · cases hsearch
    · exact (Except.ok.inj hsearch).symm
  · rw [hbuild] at hbuilt
    cases hbuilt

/-- Building an index and searching it comes back exactly when the chains of
the words and of the first query word are all different ones. -/
theorem build_search_iff (adds : List Posting) (word : Bytes) (query : List Bytes) :
    (∃ index found, build adds = .ok index ∧ index.search (word :: query) = .ok found) ↔
      (bucketOf word :: adds.map fun a => bucketOf a.word).Nodup := by
  have hbuild := build_built adds
  rw [List.nodup_cons]
  split at hbuild
  · next hd =>
    obtain ⟨index, hrun, h⟩ := hbuild
    rw [and_iff_left hd]
    constructor
    · rintro ⟨index', found, hrun', hsearch⟩ hmem
      rw [hrun] at hrun'
      obtain rfl := Except.ok.inj hrun'
      rw [search_built h, if_pos hmem] at hsearch
      cases hsearch
    · intro hnot
      exact ⟨index, none, hrun, by rw [search_built h, if_neg hnot]⟩
  · next hd =>
    constructor
    · rintro ⟨index, found, hrun, _⟩
      rw [hbuild] at hrun
      cases hrun
    · rintro ⟨_, hd'⟩
      exact absurd hd' hd

/-- The only word of an index is looked up in a freed node. -/
theorem search_reads_freed : ∃ index, build [⟨[97], 1, LinkedList.allocate.append 0⟩] = .ok index ∧
    index.search [[97]] = .error .badAccess := by
  obtain ⟨index, hindex, h⟩ := build_built [⟨[97], 1, LinkedList.allocate.append 0⟩]
  exact ⟨index, hindex, by rw [search_built h, if_pos (by simp)]⟩

end DanglingMemIndex

end SearchEngine
