import SearchEngine.CrawlCoverage
import SearchEngine.IndexRoundTrip

namespace SearchEngine.CrawlFileTree

open Dir FileParser HashTable

def IsDocID (n : Nat) (docId : DocID) : Prop := 1 ≤ docId.toNat ∧ docId.toNat ≤ n

/-- What holds between the two structures that a crawl has filled, when it has
registered so many documents. -/
structure Consistent (s : Crawl) (n : Nat) : Prop where
  names : ∀ docId, (∃ name, s.docTable.idToName.lookup docId = some name) ↔ IsDocID n docId
  ids : ∀ docId, (∃ key, s.docTable.nameToId.lookup key = some docId) ↔ IsDocID n docId
  indexed : ∀ docId, (∃ kv ∈ s.index.pairs, ∃ p, kv.value.postings.lookup docId = some p) ↔ IsDocID n docId
  words : ∀ kv ∈ s.index.pairs, kv.key = hashString kv.value.word ∧ LowerLetters kv.value.word
  postings : ∀ kv ∈ s.index.pairs, kv.value.postings.pairs ≠ []
  positions : ∀ kv ∈ s.index.pairs, ∀ docId p, kv.value.postings.lookup docId = some p →
    p.payloads ≠ [] ∧ p.payloads.Pairwise (· < ·)

theorem Consistent.getDocName {s : Crawl} {n : Nat} (h : Consistent s n) {kv : HTKeyValue WordPostings}
    (hkv : kv ∈ s.index.pairs) {docId : DocID} {p : Postings} (hp : kv.value.postings.lookup docId = some p) :
    ∃ name, s.docTable.getDocName docId = .ok (some name) ∧ s.docTable.idToName.lookup docId = some name := by
  have hid := (h.indexed docId).mp ⟨kv, hkv, p, hp⟩
  obtain ⟨name, hname⟩ := (h.names docId).mpr hid
  refine ⟨name, ?_, hname⟩
  have hne : docId ≠ DocTable.INVALID_DOCID := by
    rintro rfl
    exact absurd hid.1 (by decide)
  simp [DocTable.getDocName, find_eq, hname, hne]

section

variable {s : Crawl} {files : List File}

theorem idAt_toNat {i : Nat} (hi : i ≤ INT_MAX) : (DocTable.idAt i).toNat = i + 1 := by
  unfold INT_MAX at hi
  rw [DocTable.idAt, UInt64.toNat_ofNat']
  omega

theorem isDocID_iff {n : Nat} (hn : n ≤ INT_MAX) (docId : DocID) :
    IsDocID n docId ↔ ∃ i, i < n ∧ docId = DocTable.idAt i := by
  constructor
  · rintro ⟨hpos, hle⟩
    refine ⟨docId.toNat - 1, by omega, ?_⟩
    apply UInt64.toNat_inj.mp
    rw [idAt_toNat (by omega)]
    omega
  · rintro ⟨i, hi, rfl⟩
    rw [IsDocID, idAt_toNat (by omega)]
    omega

theorem Crawled.posting (hs : Crawled s files) (hlen : ∀ f ∈ files, f.contents.length < 2 ^ 31)
    {kv : HTKeyValue WordPostings} (hkv : kv ∈ s.index.pairs) {docId : DocID} {p : Postings}
    (hp : kv.value.postings.lookup docId = some p) :
    (∃ i, i < (indexed files).length ∧ docId = DocTable.idAt i) ∧ p.payloads ≠ [] ∧ p.payloads.Pairwise (· < ·) := by
  have hpost : s.index.postingsAt kv.key docId = some p := by
    rw [MemIndex.postingsAt, mem_pairs.mp hkv]
    exact hp
  obtain ⟨a, ha, _, rfl, rfl⟩ := (hs.index.entries _ _ _).mp hpost
  obtain ⟨i, path, tab, hi, ha⟩ := mem_postingsFrom.mp ha
  obtain ⟨hdoc, key, hl⟩ := mem_postingsOf.mp ha
  obtain ⟨f, hf, _, htab⟩ := mem_indexed.mp (List.mem_of_getElem? hi)
  refine ⟨⟨i, (List.getElem?_eq_some_iff.mp hi).1, hdoc⟩, ?_⟩
  exact (tableOf_parsed (hlen f hf) htab).positions_ascending (hlen f hf) hl

/-- A file that gets a table has at least one word. -/
theorem Crawled.posting_of_doc (hs : Crawled s files) (hlen : ∀ f ∈ files, f.contents.length < 2 ^ 31) {i : Nat}
    (hi : i < (indexed files).length) :
    ∃ kv ∈ s.index.pairs, ∃ p, kv.value.postings.lookup (DocTable.idAt i) = some p := by
  obtain ⟨⟨path, tab⟩, hget⟩ : ∃ d, (indexed files)[i]? = some d := ⟨_, List.getElem?_eq_getElem hi⟩
  obtain ⟨f, hf, _, htab⟩ := mem_indexed.mp (List.mem_of_getElem? hget)
  rcases parse_ok (hlen f hf) (tableOf_eq_some.mp htab) with ⟨hnone, _⟩ | ⟨tab', hsome, hne, hparsed⟩
  · cases hnone
  · obtain rfl := Option.some.inj hsome
    obtain ⟨t, ht⟩ := List.exists_mem_of_ne_nil _ hne
    obtain ⟨wp, hl, hword⟩ := hparsed.word t ht
    have ha : (⟨wp.word, DocTable.idAt i, wp.positions⟩ : Posting) ∈ postingsFrom (indexed files) :=
      mem_postingsFrom.mpr ⟨i, _, _, hget, mem_postingsOf.mpr ⟨rfl, _, hl⟩⟩
    obtain ⟨wp', hl', _⟩ := hs.index.word _ ha
    have hpost := (hs.index.entries (hashString wp.word) (DocTable.idAt i) wp.positions).mpr ⟨_, ha, rfl, rfl, rfl⟩
    rw [MemIndex.postingsAt, hl', Option.bind_some] at hpost
    exact ⟨⟨hashString wp.word, wp'⟩, mem_pairs.mpr hl', wp.positions, hpost⟩

theorem Crawled.consistent (hs : Crawled s files) (hlen : ∀ f ∈ files, f.contents.length < 2 ^ 31) :
    Consistent s (indexed files).length := by
  have hle := hs.docs.length_le
  rw [List.length_map] at hle
  have hname (i : Nat) : (∃ name, ((indexed files).map Prod.fst)[i]? = some name) ↔ i < (indexed files).length := by
    rw [← Option.isSome_iff_exists, isSome_getElem?, List.length_map]
  constructor
  · intro docId
    rw [isDocID_iff hle]
    simp only [hs.docs.idToName]
    constructor
    · rintro ⟨name, i, hi, rfl⟩
      exact ⟨i, (hname i).mp ⟨name, hi⟩, rfl⟩
    · rintro ⟨i, hi, rfl⟩
      obtain ⟨name, hi⟩ := (hname i).mpr hi
      exact ⟨name, i, hi, rfl⟩
  · intro docId
    rw [isDocID_iff hle]
    simp only [hs.docs.nameToId]
    constructor
    · rintro ⟨key, i, name, hi, _, rfl⟩
      exact ⟨i, (hname i).mp ⟨name, hi⟩, rfl⟩
    · rintro ⟨i, hi, rfl⟩
      obtain ⟨name, hi⟩ := (hname i).mpr hi
      exact ⟨hashString name, i, name, hi, rfl, rfl⟩
  · intro docId
    rw [isDocID_iff hle]
    constructor
    · rintro ⟨kv, hkv, p, hp⟩
      exact (hs.posting hlen hkv hp).1
    · rintro ⟨i, hi, rfl⟩
      exact hs.posting_of_doc hlen hi
  · intro kv hkv
    obtain ⟨a, ha, hword, hhash⟩ := hs.index.words _ _ (mem_pairs.mp hkv)
    obtain ⟨i, path, tab, hi, ha⟩ := mem_postingsFrom.mp ha
    obtain ⟨_, key, hl⟩ := mem_postingsOf.mp ha
    obtain ⟨f, hf, _, htab⟩ := mem_indexed.mp (List.mem_of_getElem? hi)
    rw [← hword]
    exact ⟨hhash.symm, (tableOf_parsed (hlen f hf) htab).letters hl⟩
  · intro kv hkv
    obtain ⟨a, ha, hword, hhash⟩ := hs.index.words _ _ (mem_pairs.mp hkv)
    have hpost := (hs.index.entries kv.key a.docId a.postings).mpr ⟨a, ha, hhash, rfl, rfl⟩
    rw [MemIndex.postingsAt, mem_pairs.mp hkv, Option.bind_some] at hpost
    have hmem : ⟨a.docId, a.postings⟩ ∈ kv.value.postings.pairs := mem_pairs.mpr hpost
    exact List.ne_nil_of_mem hmem
  · intro kv hkv docId p hp
    exact (hs.posting hlen hkv hp).2

end

variable (qsort : Sorter fun e1 e2 => alphasort e1 e2 < 0)

/-- The document that the index file names for a posting is always found. -/
def LookupsHit (s : Crawl) : Prop :=
  ∀ image, IndexFile s.index s.docTable image → WriteIndex.Representable s.index s.docTable →
    ∀ kv ∈ s.index.pairs, ∀ docId p, kv.value.postings.lookup docId = some p →
      ∃ name, FileProgram.Returns image
        (DocTableReader.lookupDocID (HashTableReader.readerAt 16 s.docTable.idToName) docId) (some name)

theorem Consistent.lookupsHit {s : Crawl} {n : Nat} (h : Consistent s n) : LookupsHit s := by
  intro image hfile hrep kv hkv docId p hp
  obtain ⟨name, _, hname⟩ := h.getDocName hkv hp
  refine ⟨name, ?_⟩
  rw [← hname]
  exact DocTableReader.lookupDocID_returns hfile.docs (fun kv hkv => (hrep.names kv hkv).2) docId

/-- Whatever a completed crawl visits, its two structures fit together. -/
theorem crawlFileTree_consistent (rootDir : Bytes) (d : Dir)
    (hlen : ∀ f ∈ d.files rootDir, f.contents.length < 2 ^ 31) (hpaths : ((d.files rootDir).map File.path).Nodup)
    (hfree : CollisionFree (d.files rootDir)) {s : Crawl}
    (h : crawlFileTree qsort rootDir (some (.dir d)) = .ok (some s)) : (∃ n, Consistent s n) ∧ LookupsHit s := by
  obtain ⟨docTable, index, hdocs, hindex, hstart⟩ := start_crawled
  obtain ⟨visited, hvisited, hrun⟩ := handleDir_visits qsort (d.depth + 1) rootDir d (Nat.lt_succ_self _)
  simp only [crawlFileTree, hdocs, hindex, Run.ok_bind, hrun] at h
  obtain ⟨s', hfiles, h⟩ := Run.bind_eq_ok.mp h
  obtain rfl : s' = s := by simpa using h
  have hmem : ∀ f ∈ [] ++ visited, f ∈ d.files rootDir := fun f hf => hvisited.subset hf
  have hfree' : CollisionFree ([] ++ visited) := by
    constructor
    · intro f hf g hg
      exact hfree.paths f (hmem f hf) g (hmem g hg)
    · have hwords : ∀ w ∈ wordsOf ([] ++ visited), w ∈ wordsOf (d.files rootDir) := by
        intro w hw
        obtain ⟨f, hf, hw⟩ := List.mem_flatMap.mp hw
        exact List.mem_flatMap.mpr ⟨f, hmem f hf, hw⟩
      intro u hu v hv
      exact hfree.words u (hwords u hu) v (hwords v hv)
  have hnodup : (([] ++ visited).map File.path).Nodup := by
    obtain ⟨l, hl, hsub⟩ := hvisited
    exact (hl.map File.path).nodup_iff.mp (hpaths.sublist (hsub.map File.path))
  obtain ⟨hs, _⟩ := handleFiles_crawled hstart (fun f hf => hlen f (hmem f hf)) hfree' hnodup hfiles
  have hcons := hs.consistent fun f hf => hlen f (hmem f hf)
  exact ⟨⟨_, hcons⟩, hcons.lookupsHit⟩

theorem crawlFileTree_consistent_smallTree :
    ∃ s, crawlFileTree (mergeSorter _) (ascii ['.']) (some (.dir smallTree)) = .ok (some s) ∧
      (∃ n, Consistent s n) ∧ LookupsHit s := by
  have hlen : ∀ f ∈ smallTree.files (ascii ['.']), f.contents.length < 2 ^ 31 := by decide
  have hfree : CollisionFree (smallTree.files (ascii ['.'])) := ⟨by decide +kernel, by decide +kernel⟩
  obtain ⟨s, _, _, h, _⟩ := crawlFileTree_new (mergeSorter _) (ascii ['.']) smallTree (by decide) hlen hfree
    (by decide) ⟨by decide, by decide⟩
  exact ⟨s, h, crawlFileTree_consistent (mergeSorter _) (ascii ['.']) smallTree hlen (by decide) hfree h⟩

end SearchEngine.CrawlFileTree
