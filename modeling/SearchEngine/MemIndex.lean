import SearchEngine.Resize
import SearchEngine.Library.ByteStrings
import Mathlib.Data.Finset.Dedup
import Mathlib.Data.Finset.Card

namespace SearchEngine

abbrev DocID := UInt64

/-- Position lists hold DocPositionOffset_t values in pointer-sized payloads. -/
abbrev Postings := LinkedList UInt64

structure WordPostings where
  word : Bytes
  postings : HashTable Postings

abbrev MemIndex := HashTable WordPostings

namespace MemIndex

open HashTable

/-- POSTINGS_TABLE_INIT_BUCKETS, and the start size of both kinds of tables. -/
def initBuckets : Int := 16

def allocate : Run MemIndex := HashTable.allocate initBuckets

def numWords (index : MemIndex) : Nat := index.numElements

/-- The WordPostings of a word, new if the word is, and the index with it. -/
def findOrInsertWord (index : MemIndex) (word : Bytes) : Run (MemIndex × WordPostings) := do
  let key := hashString word
  match ← index.find key with
  | none =>
      let wp : WordPostings := ⟨word, ← HashTable.allocate initBuckets⟩
      let (index, _) ← index.insert ⟨key, wp⟩
      return (index, wp)
  | some kv =>
      verify333 (kv.value.word = word)
      return (index, kv.value)

def addPostingList (index : MemIndex) (word : Bytes) (docId : DocID) (postings : Postings) :
    Run MemIndex := do
  let (index, wp) ← index.findOrInsertWord word
  let found ← wp.postings.find docId
  verify333 found.isNone
  let (table, _) ← wp.postings.insert ⟨docId, postings⟩
  return index.writeValue (hashString word) ⟨wp.word, table⟩

end MemIndex

/-- One call of MemIndex_AddPostingList. -/
structure Posting where
  word : Bytes
  docId : DocID
  postings : Postings

namespace MemIndex

open HashTable

def addAll (index : MemIndex) (adds : List Posting) : Run MemIndex :=
  adds.foldlM (fun index a => index.addPostingList a.word a.docId a.postings) index

def build (adds : List Posting) : Run MemIndex := do
  let index ← allocate
  index.addAll adds

def postingsAt (index : MemIndex) (key : UInt64) (docId : DocID) : Option Postings :=
  (index.lookup key).bind fun wp => wp.postings.lookup docId

/-- The index holds exactly the posting lists that were added. -/
structure Indexes (index : MemIndex) (adds : List Posting) : Prop where
  grown : Grown 16 index
  tables : ∀ key wp, index.lookup key = some wp → Grown 16 wp.postings
  words : ∀ key wp, index.lookup key = some wp → ∃ a ∈ adds, a.word = wp.word ∧ hashString a.word = key
  word : ∀ a ∈ adds, ∃ wp, index.lookup (hashString a.word) = some wp ∧ wp.word = a.word
  entries : ∀ key docId p, index.postingsAt key docId = some p ↔
    ∃ a ∈ adds, hashString a.word = key ∧ a.docId = docId ∧ a.postings = p
  numWords : index.numElements = (adds.map Posting.word).toFinset.card
  numDocs : ∀ key wp, index.lookup key = some wp →
    wp.postings.numElements = adds.countP fun a => a.word = wp.word
  distinct : (adds.map fun a => (a.word, a.docId)).Nodup

theorem allocate_indexes {index : MemIndex} (h : allocate = .ok index) : Indexes index [] := by
  obtain ⟨t, halloc, hzero, hgrown⟩ := allocate_grown (V := WordPostings) (n := initBuckets) (by decide) (by decide)
  obtain rfl : t = index := by
    rw [allocate, halloc] at h
    exact Except.ok.inj h
  have hnone := lookup_of_numElements_zero hzero
  exact ⟨hgrown, by simp [hnone], by simp [hnone], by simp, by simp [postingsAt, hnone], by simp [hzero],
    by simp [hnone], List.nodup_nil⟩

theorem Indexes.fresh {index : MemIndex} {adds : List Posting} (hidx : Indexes index adds) {word : Bytes}
    (hl : index.lookup (hashString word) = none) : word ∉ adds.map Posting.word := by
  intro hmem
  obtain ⟨a, ha, rfl⟩ := List.mem_map.mp hmem
  obtain ⟨wp, hl', _⟩ := hidx.word a ha
  rw [hl] at hl'
  cases hl'

/-- What findOrInsertWord hands out: the WordPostings now stored under the
word's hash, with the posting lists that were there before. -/
structure WordReady (index : MemIndex) (word : Bytes) (index' : MemIndex) (wp : WordPostings) : Prop where
  grown : Grown 16 index'
  table : Grown 16 wp.postings
  same : wp.word = word
  agrees : ∀ wp₀, index.lookup (hashString word) = some wp₀ → wp₀.word = word
  lookup : ∀ key, index'.lookup key = if key = hashString word then some wp else index.lookup key
  postings : ∀ docId, wp.postings.lookup docId = index.postingsAt (hashString word) docId
  numWords : index'.numElements =
    if (index.lookup (hashString word)).isSome then index.numElements else index.numElements + 1
  numDocs : wp.postings.numElements =
    ((index.lookup (hashString word)).map fun wp₀ => wp₀.postings.numElements).getD 0

theorem findOrInsertWord_ok {index index' : MemIndex} {adds : List Posting} {word : Bytes}
    {wp : WordPostings} (hidx : Indexes index adds) (h : index.findOrInsertWord word = .ok (index', wp)) :
    WordReady index word index' wp := by
  simp only [findOrInsertWord, find_eq, Run.ok_bind] at h
  cases hl : index.lookup (hashString word) with
  | none =>
      simp only [hl, Option.map_none] at h
      obtain ⟨t, halloc, hzero, hgrown⟩ := allocate_grown (V := Postings) (n := initBuckets) (by decide) (by decide)
      simp only [halloc, Run.ok_bind] at h
      obtain ⟨⟨index₁, old⟩, hins, hret⟩ := Run.bind_eq_ok.mp h
      obtain ⟨rfl, rfl⟩ : index₁ = index' ∧ (⟨word, t⟩ : WordPostings) = wp := by simpa using hret
      have hnew : index.lookup (HTKeyValue.mk (hashString word) (WordPostings.mk word t)).key = none := hl
      have hadd := insert_new_ok hidx.grown hnew hins
      refine ⟨hadd.grown, hgrown, rfl, by simp [hl], hadd.lookup, ?_, by simp [hl, hadd.count],
        by simp [hl, hzero]⟩
      intro docId
      rw [lookup_of_numElements_zero hzero, postingsAt, hl]
      rfl
  | some wp₀ =>
      simp only [hl, Option.map_some] at h
      obtain ⟨_, hver, hret⟩ := Run.bind_eq_ok.mp h
      obtain ⟨rfl, rfl⟩ : index = index' ∧ wp₀ = wp := by simpa using hret
      have hword : wp₀.word = word := by
        by_contra hne
        simp [hne] at hver
      refine ⟨hidx.grown, hidx.tables _ _ hl, hword, by simp [hl, hword], ?_, ?_, by simp [hl], by simp [hl]⟩
      · intro key
        split
        · next hk => rw [hk, hl]
        · rfl
      · intro docId
        rw [postingsAt, hl]
        rfl

/-- What addPostingList does: the word's hash leads to a table with one more
posting list, and nothing else changes. -/
structure PostingAdded (index : MemIndex) (a : Posting) (index' : MemIndex) (wp : WordPostings) : Prop where
  grown : Grown 16 index'
  table : Grown 16 wp.postings
  same : wp.word = a.word
  agrees : ∀ wp₀, index.lookup (hashString a.word) = some wp₀ → wp₀.word = a.word
  lookup : ∀ key, index'.lookup key = if key = hashString a.word then some wp else index.lookup key
  fresh : index.postingsAt (hashString a.word) a.docId = none
  postingsAt : ∀ key docId, index'.postingsAt key docId =
    if key = hashString a.word ∧ docId = a.docId then some a.postings else index.postingsAt key docId
  numWords : index'.numElements =
    if (index.lookup (hashString a.word)).isSome then index.numElements else index.numElements + 1
  numDocs : wp.postings.numElements =
    ((index.lookup (hashString a.word)).map fun wp₀ => wp₀.postings.numElements).getD 0 + 1

section

variable {index index' : MemIndex} {adds : List Posting} {a : Posting} {wp : WordPostings}

theorem addPostingList_ok (hidx : Indexes index adds)
    (h : index.addPostingList a.word a.docId a.postings = .ok index') : ∃ wp, PostingAdded index a index' wp := by
  obtain ⟨⟨index₁, wp⟩, hfind, h⟩ := Run.bind_eq_ok.mp h
  have hready := findOrInsertWord_ok hidx hfind
  simp only [find_eq, Run.ok_bind] at h
  obtain ⟨_, hver, h⟩ := Run.bind_eq_ok.mp h
  obtain ⟨⟨table, old⟩, hins, h⟩ := Run.bind_eq_ok.mp h
  obtain rfl : index₁.writeValue (hashString a.word) ⟨wp.word, table⟩ = index' := by simpa using h
  have hnew : wp.postings.lookup a.docId = none := by
    by_contra hne
    obtain ⟨p, hp⟩ := Option.ne_none_iff_exists'.mp hne
    simp [hp] at hver
  have hadd := insert_new_ok hready.table hnew hins
  have hthere : (index₁.lookup (hashString a.word)).isSome := by simp [hready.lookup]
  obtain ⟨hlook, hcount, hbuckets⟩ := writeValue_spec hthere ⟨wp.word, table⟩
  have hlook' (key : UInt64) : (index₁.writeValue (hashString a.word) ⟨wp.word, table⟩).lookup key =
      if key = hashString a.word then some ⟨wp.word, table⟩ else index.lookup key := by
    rw [hlook, hready.lookup]
    split <;> rfl
  exact ⟨⟨wp.word, table⟩, {
    grown := ⟨by decide, by rw [hcount, hbuckets]; exact hready.grown.buckets,
      by rw [hcount]; exact hready.grown.fits⟩
    table := hadd.grown
    same := hready.same
    agrees := hready.agrees
    lookup := hlook'
    fresh := by rw [← hready.postings, hnew]
    postingsAt := by
      intro key docId
      rw [MemIndex.postingsAt, hlook']
      by_cases hk : key = hashString a.word
      · simp only [hk, if_true, Option.bind_some, hadd.lookup, hready.postings, true_and]
      · simp only [hk, if_false, false_and]
        rfl
    numWords := by rw [hcount, hready.numWords]
    numDocs := by rw [← hready.numDocs, ← hadd.count] }⟩

theorem PostingAdded.entries (hidx : Indexes index adds) (hadd : PostingAdded index a index' wp) (key : UInt64)
    (docId : DocID) (p : Postings) : index'.postingsAt key docId = some p ↔
      ∃ b ∈ adds ++ [a], hashString b.word = key ∧ b.docId = docId ∧ b.postings = p := by
  rw [hadd.postingsAt]
  split
  · next hk =>
    obtain ⟨rfl, rfl⟩ := hk
    constructor
    · intro hp
      exact ⟨a, by simp, rfl, rfl, Option.some.inj hp⟩
    · rintro ⟨b, hb, hhash, hdoc, rfl⟩
      rcases List.mem_append.mp hb with hb | hb
      · have hold := (hidx.entries _ _ _).mpr ⟨b, hb, hhash, hdoc, rfl⟩
        simp [hadd.fresh] at hold
      · rw [List.mem_singleton.mp hb]
  · next hk =>
    rw [hidx.entries]
    constructor
    · rintro ⟨b, hb, hrest⟩
      exact ⟨b, by simp [hb], hrest⟩
    · rintro ⟨b, hb, hhash, hdoc, hp⟩
      rcases List.mem_append.mp hb with hb | hb
      · exact ⟨b, hb, hhash, hdoc, hp⟩
      · obtain rfl := List.mem_singleton.mp hb
        exact absurd ⟨hhash.symm, hdoc.symm⟩ hk

theorem PostingAdded.numWords_eq (hidx : Indexes index adds) (hadd : PostingAdded index a index' wp) :
    index'.numElements = ((adds ++ [a]).map Posting.word).toFinset.card := by
  rw [hadd.numWords, hidx.numWords, List.map_append, List.map_singleton, ByteStrings.card_concat]
  cases hl : index.lookup (hashString a.word) with
  | none =>
      rw [if_neg (hidx.fresh hl)]
      rfl
  | some wp₀ =>
      obtain ⟨b, hb, hword, _⟩ := hidx.words _ _ hl
      have hknown : a.word ∈ adds.map Posting.word := List.mem_map.mpr ⟨b, hb, hword.trans (hadd.agrees wp₀ hl)⟩
      rw [if_pos hknown]
      rfl

theorem PostingAdded.numDocs_eq (hidx : Indexes index adds) (hadd : PostingAdded index a index' wp) {key : UInt64}
    {wp' : WordPostings} (hl : index'.lookup key = some wp') :
    wp'.postings.numElements = (adds ++ [a]).countP fun b => b.word = wp'.word := by
  rw [hadd.lookup] at hl
  rw [List.countP_append, List.countP_singleton]
  split at hl
  · obtain rfl := Option.some.inj hl
    rw [hadd.numDocs, hadd.same]
    cases hl₀ : index.lookup (hashString a.word) with
    | none =>
        have hzero : adds.countP (fun b => decide (b.word = a.word)) = 0 := by
          rw [List.countP_eq_zero]
          intro b hb hword
          exact hidx.fresh hl₀ (List.mem_map.mpr ⟨b, hb, of_decide_eq_true hword⟩)
        simp [hzero]
    | some wp₀ =>
        have hdocs := hidx.numDocs _ _ hl₀
        rw [hadd.agrees wp₀ hl₀] at hdocs
        simp [hdocs]
  · next hk =>
    have hother : a.word ≠ wp'.word := by
      intro he
      obtain ⟨b, _, hword, hhash⟩ := hidx.words key wp' hl
      exact hk (by rw [← hhash, hword, he])
    rw [hidx.numDocs key wp' hl]
    simp [hother]

theorem PostingAdded.distinct (hidx : Indexes index adds) (hadd : PostingAdded index a index' wp) :
    ((adds ++ [a]).map fun b => (b.word, b.docId)).Nodup := by
  rw [List.map_append, List.nodup_append]
  refine ⟨hidx.distinct, by simp, ?_⟩
  intro p hp q hq
  obtain rfl := List.mem_singleton.mp hq
  rintro rfl
  obtain ⟨b, hb, hpair⟩ := List.mem_map.mp hp
  have hold := (hidx.entries (hashString b.word) b.docId b.postings).mpr ⟨b, hb, rfl, rfl, rfl⟩
  simp only [Prod.mk.injEq] at hpair
  rw [hpair.1, hpair.2, hadd.fresh] at hold
  cases hold

theorem addPostingList_indexes (hidx : Indexes index adds)
    (h : index.addPostingList a.word a.docId a.postings = .ok index') : Indexes index' (adds ++ [a]) := by
  obtain ⟨wp, hadd⟩ := addPostingList_ok hidx h
  exact {
    grown := hadd.grown
    tables := by
      intro key wp' hl
      rw [hadd.lookup] at hl
      split at hl
      · obtain rfl := Option.some.inj hl
        exact hadd.table
      · exact hidx.tables key wp' hl
    words := by
      intro key wp' hl
      rw [hadd.lookup] at hl
      split at hl
      · next hk =>
        obtain rfl := Option.some.inj hl
        exact ⟨a, by simp, hadd.same.symm, hk.symm⟩
      · obtain ⟨b, hb, hword, hhash⟩ := hidx.words key wp' hl
        exact ⟨b, by simp [hb], hword, hhash⟩
    word := by
      intro b hb
      rw [hadd.lookup]
      rcases List.mem_append.mp hb with hb | hb
      · obtain ⟨wp', hl, hword⟩ := hidx.word b hb
        split
        · next hk =>
          rw [hk] at hl
          exact ⟨_, rfl, by rw [hadd.same, ← hadd.agrees wp' hl, hword]⟩
        · exact ⟨wp', hl, hword⟩
      · obtain rfl := List.mem_singleton.mp hb
        exact ⟨_, if_pos rfl, hadd.same⟩
    entries := hadd.entries hidx
    numWords := hadd.numWords_eq hidx
    numDocs := fun key wp' hl => hadd.numDocs_eq hidx hl
    distinct := hadd.distinct hidx }

end

structure HasRoom (index : MemIndex) (word : Bytes) : Prop where
  words : index.lookup (hashString word) = none → 3 * bucketsFor 16 (index.numElements + 1) ≤ INT_MAX
  table : ∀ wp, index.lookup (hashString word) = some wp →
    3 * bucketsFor 16 (wp.postings.numElements + 1) ≤ INT_MAX

theorem bucketsFor_one : 3 * bucketsFor 16 1 ≤ INT_MAX := by decide

theorem findOrInsertWord_new {index : MemIndex} {adds : List Posting} {word : Bytes}
    (hidx : Indexes index adds) (hfree : ∀ b ∈ adds, hashString b.word = hashString word → b.word = word)
    (hroom : index.HasRoom word) :
    ∃ index' wp, index.findOrInsertWord word = .ok (index', wp) ∧
      3 * bucketsFor 16 (wp.postings.numElements + 1) ≤ INT_MAX := by
  simp only [findOrInsertWord, find_eq, Run.ok_bind]
  cases hl : index.lookup (hashString word) with
  | none =>
      obtain ⟨t, halloc, hzero, _⟩ := allocate_grown (V := Postings) (n := initBuckets) (by decide) (by decide)
      have hnew : index.lookup (HTKeyValue.mk (hashString word) (WordPostings.mk word t)).key = none := hl
      obtain ⟨index', hins, _⟩ := insert_new _ hidx.grown hnew (hroom.words hl)
      exact ⟨index', ⟨word, t⟩, by simp [halloc, hins], by rw [hzero]; exact bucketsFor_one⟩
  | some wp =>
      obtain ⟨b, hb, hword, hhash⟩ := hidx.words _ _ hl
      have hsame : wp.word = word := hword ▸ hfree b hb hhash
      exact ⟨index, wp, by simp [hsame], hroom.table wp hl⟩

theorem addPostingList_new {index : MemIndex} {adds : List Posting} (hidx : Indexes index adds) {a : Posting}
    (hfree : ∀ b ∈ adds, hashString b.word = hashString a.word → b.word = a.word)
    (hnew : index.postingsAt (hashString a.word) a.docId = none) (hroom : index.HasRoom a.word) :
    ∃ index', index.addPostingList a.word a.docId a.postings = .ok index' := by
  obtain ⟨index₁, wp, hfind, hfit⟩ := findOrInsertWord_new hidx hfree hroom
  have hready := findOrInsertWord_ok hidx hfind
  have hlook : wp.postings.lookup (HTKeyValue.mk a.docId a.postings).key = none := by
    rw [← hnew, ← hready.postings]
  obtain ⟨table, hins, _⟩ := insert_new _ hready.table hlook hfit
  have hnone : wp.postings.lookup a.docId = none := hlook
  exact ⟨_, by simp only [addPostingList, hfind, Run.ok_bind, find_eq, hnone, Option.map_none,
    Option.isNone_none, verify333_true, hins]; rfl⟩

theorem addAll_indexes {index index' : MemIndex} {adds more : List Posting} (hidx : Indexes index adds)
    (h : index.addAll more = .ok index') : Indexes index' (adds ++ more) := by
  induction more generalizing index adds with
  | nil =>
      obtain rfl : index = index' := by simpa [addAll] using h
      simpa using hidx
  | cons a more ih =>
      simp only [addAll, List.foldlM_cons] at h
      obtain ⟨index₁, hadd, h⟩ := Run.bind_eq_ok.mp h
      have hnext := ih (addPostingList_indexes hidx hadd) h
      rwa [List.append_assoc] at hnext

/-- Posting lists of different words or documents can all be added while the
word table and every table of documents have room. -/
theorem addAll_new {index : MemIndex} {adds more : List Posting} (hidx : Indexes index adds)
    (hfree : ∀ a ∈ adds ++ more, ∀ b ∈ adds ++ more, hashString a.word = hashString b.word → a.word = b.word)
    (hdistinct : ((adds ++ more).map fun a => (a.word, a.docId)).Nodup)
    (hwords : 3 * bucketsFor 16 ((adds ++ more).map Posting.word).toFinset.card ≤ INT_MAX)
    (hdocs : ∀ w, 3 * bucketsFor 16 ((adds ++ more).countP fun a => a.word = w) ≤ INT_MAX) :
    ∃ index', index.addAll more = .ok index' := by
  induction more generalizing index adds with
  | nil => exact ⟨index, rfl⟩
  | cons a more ih =>
      have hassoc : adds ++ [a] ++ more = adds ++ a :: more := by simp
      have hnew : index.postingsAt (hashString a.word) a.docId = none := by
        apply Option.eq_none_iff_forall_ne_some.mpr
        intro p hp
        obtain ⟨b, hb, hhash, hdoc, _⟩ := (hidx.entries _ _ _).mp hp
        have hword := hfree b (by simp [hb]) a (by simp) hhash
        rw [List.map_append, List.nodup_append] at hdistinct
        exact hdistinct.2.2 (b.word, b.docId) (List.mem_map_of_mem hb) (a.word, a.docId) (by simp)
          (by rw [hword, hdoc])
      have hroom : index.HasRoom a.word := by
        constructor
        · intro hl
          refine Nat.le_trans (Nat.mul_le_mul_left 3 (bucketsFor_mono 16 ?_)) hwords
          have hcard := ByteStrings.card_concat (adds.map Posting.word) a.word
          rw [if_neg (hidx.fresh hl)] at hcard
          rw [hidx.numWords, ← hcard]
          apply Finset.card_le_card
          intro w hw
          rw [← hassoc, List.mem_toFinset, List.map_append, List.map_append]
          exact List.mem_append_left _ (List.mem_toFinset.mp hw)
        · intro wp hl
          refine Nat.le_trans (Nat.mul_le_mul_left 3 (bucketsFor_mono 16 ?_)) (hdocs a.word)
          obtain ⟨b, hb, hword, hhash⟩ := hidx.words _ _ hl
          have hsame := hfree b (by simp [hb]) a (by simp) hhash
          rw [hidx.numDocs _ _ hl, ← hword, hsame, List.countP_append, List.countP_cons_of_pos (by simp)]
          omega
      obtain ⟨index₁, hadd⟩ := addPostingList_new hidx (fun b hb => hfree b (by simp [hb]) a (by simp)) hnew hroom
      obtain ⟨index', h⟩ := ih (addPostingList_indexes hidx hadd) (by rwa [hassoc]) (by rwa [hassoc])
        (by rwa [hassoc]) (by rwa [hassoc])
      refine ⟨index', ?_⟩
      simp only [addAll, List.foldlM_cons, hadd, Run.ok_bind]
      exact h

theorem Indexes.hash_word {index : MemIndex} {adds : List Posting} (hidx : Indexes index adds)
    {kv : HTKeyValue WordPostings} (h : kv ∈ index.pairs) : hashString kv.value.word = kv.key := by
  obtain ⟨a, _, hword, hhash⟩ := hidx.words _ _ (mem_pairs.mp h)
  rw [← hword, hhash]

theorem build_indexes {index : MemIndex} {adds : List Posting} (h : build adds = .ok index) :
    Indexes index adds := by
  obtain ⟨index₀, halloc, h⟩ := Run.bind_eq_ok.mp h
  exact addAll_indexes (allocate_indexes halloc) h

end MemIndex

end SearchEngine
