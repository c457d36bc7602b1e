import SearchEngine.QueryResults
import SearchEngine.WordOccurrences

/-! The program that writes an index file for a directory tree, and what is
found in the files that it has written. -/

namespace SearchEngine

theorem DocTable.build_concat (names : List Bytes) (name : Bytes) :
    DocTable.build (names ++ [name]) = do
      let table ← DocTable.build names
      let (table, _) ← table.add name
      return table := by
  simp only [DocTable.build, DocTable.addAll, List.foldlM_append, List.foldlM_cons, List.foldlM_nil, bind_assoc,
    bind_pure]

theorem MemIndex.build_append (adds more : List Posting) :
    MemIndex.build (adds ++ more) = MemIndex.build adds >>= fun index => index.addAll more := by
  simp only [MemIndex.build, MemIndex.addAll, List.foldlM_append, bind_assoc]

namespace CrawlFileTree

open Dir FileParser HashTable QueryProcessor

/-- The calls that a crawl has made to fill its two structures. -/
structure Built (s : Crawl) (files : List File) : Prop where
  docTable : DocTable.build ((indexed files).map Prod.fst) = .ok s.docTable
  index : MemIndex.build (postingsFrom (indexed files)) = .ok s.index

section

variable {s s' : Crawl} {files : List File} {f : File}

theorem handleFile_built (hs : Crawled s files) (hb : Built s files) (hlen : f.contents.length < 2 ^ 31)
    (hnew : ∀ g ∈ files, hashString g.path ≠ hashString f.path) (h : handleFile s f = .ok s') :
    Built s' (files ++ [f]) := by
  rw [handleFile_eq s f hlen] at h
  split at h
  · cases h
  · obtain ⟨r, hparse, h⟩ := Run.bind_eq_ok.mp h
    cases r with
    | none =>
        obtain rfl := Except.ok.inj h
        have hnone : tableOf f.contents = none := by
          rw [tableOf, hparse]
          rfl
        have hsame : indexed (files ++ [f]) = indexed files := by simp [indexed_concat, hnone]
        exact ⟨hsame ▸ hb.docTable, hsame ▸ hb.index⟩
    | some tab =>
        obtain ⟨⟨docTable, docId⟩, hadd, h⟩ := Run.bind_eq_ok.mp h
        obtain ⟨index, hall, h⟩ := Run.bind_eq_ok.mp h
        obtain rfl := Except.ok.inj h
        have hmore : indexed (files ++ [f]) = indexed files ++ [(f.path, tab)] := by
          simp [indexed_concat, tableOf_eq_some.mpr hparse]
        have hdoc : docId = DocTable.idAt (indexed files).length := by
          rcases DocTable.add_ok hs.docs hadd with ⟨_, hfound⟩ | ⟨_, hdoc, _⟩
          · have hnone : s.docTable.nameToId.lookup (hashString f.path) = none := by
              apply hs.docs.lookup_hash.mpr
              intro path hpath
              obtain ⟨g, hg, rfl⟩ := names_indexed hpath
              exact hnew g hg
            rw [hnone] at hfound
            cases hfound
          · rw [hdoc, List.length_map]
        rw [hdoc] at hall
        constructor
        · rw [hmore, List.map_append, List.map_singleton, DocTable.build_concat, hb.docTable, Run.ok_bind, hadd]
          rfl
        · rw [hmore, postingsFrom_concat, MemIndex.build_append, hb.index, Run.ok_bind]
          exact hall

theorem handleFiles_built {more : List File} (hs : Crawled s files) (hb : Built s files)
    (hlen : ∀ f ∈ files ++ more, f.contents.length < 2 ^ 31) (hfree : CollisionFree (files ++ more))
    (hpaths : ((files ++ more).map File.path).Nodup) (h : more.foldlM handleFile s = .ok s') :
    Built s' (files ++ more) := by
  induction more generalizing s files with
  | nil =>
      obtain rfl := Except.ok.inj h
      rwa [List.append_nil]
  | cons f more ih =>
      have hassoc : files ++ f :: more = files ++ [f] ++ more := by simp
      rw [List.foldlM_cons] at h
      obtain ⟨s₁, hf, h⟩ := Run.bind_eq_ok.mp h
      have hnew := hash_new hfree hpaths
      obtain ⟨hs₁, _⟩ := handleFile_crawled hs (hlen f (by simp)) hnew hf
      have hb₁ := handleFile_built hs hb (hlen f (by simp)) hnew hf
      rw [hassoc] at hlen hfree hpaths ⊢
      exact ih hs₁ hb₁ hlen hfree hpaths h

theorem crawlFileTree_built (qsort : Sorter fun e1 e2 => alphasort e1 e2 < 0) (rootDir : Bytes) {d : Dir}
    (hd : d.Valid MAX_NUM_DIR_ENTRIES) (hlen : ∀ f ∈ d.files rootDir, f.contents.length < 2 ^ 31)
    (hfree : CollisionFree (d.files rootDir)) (h : crawlFileTree qsort rootDir (some (.dir d)) = .ok (some s)) :
    ∃ order : List File, order.Perm (d.files rootDir) ∧ Crawled s order ∧ Built s order ∧
      ∀ f ∈ order, ∃ r, parseIntoWordPositionsTable f.contents = .ok r := by
  obtain ⟨docTable, index, hdocs, hindex, hstart⟩ := start_crawled
  obtain ⟨order, horder, hrun⟩ := handleDir_order qsort (d.depth + 1) rootDir d (Nat.lt_succ_self _) hd
  simp only [crawlFileTree, hdocs, hindex, Run.ok_bind, hrun] at h
  obtain ⟨s', hfiles, hret⟩ := Run.bind_eq_ok.mp h
  obtain rfl := Option.some.inj (Except.ok.inj hret)
  have hlen' : ∀ f ∈ [] ++ order, f.contents.length < 2 ^ 31 := fun f hf => hlen f (horder.mem_iff.mp hf)
  have hpaths : (([] ++ order).map File.path).Nodup :=
    (horder.map File.path).nodup_iff.mpr (nodup_paths d rootDir hd)
  have hempty : Built ⟨docTable, index⟩ [] := by
    constructor
    · simp only [indexed, List.filterMap_nil, List.map_nil, DocTable.build, hdocs, Run.ok_bind]
      rfl
    · simp only [indexed, List.filterMap_nil, MemIndex.build, hindex, Run.ok_bind]
      rfl
  obtain ⟨hs, hall⟩ := handleFiles_crawled hstart hlen' (hfree.perm horder) hpaths hfiles
  have hb := handleFiles_built hstart hempty hlen' (hfree.perm horder) hpaths hfiles
  rw [List.nil_append] at hs hb
  exact ⟨order, horder, hs, hb, fun f hf => (hall f hf).2⟩

/-- The postings of a document count the words of its file. -/
theorem Crawled.posting_counts (hs : Crawled s files) (hlen : ∀ f ∈ files, f.contents.length < 2 ^ 31) (hf : f ∈ files)
    {i : Nat} {tab : WordTable} (hi : (indexed files)[i]? = some (f.path, tab)) (htab : tableOf f.contents = some tab)
    {a : Posting} (ha : a ∈ postingsFrom (indexed files)) (hdoc : a.docId = DocTable.idAt i) :
    0 < occurrences f.contents a.word ∧ a.postings.numElements = occurrences f.contents a.word := by
  obtain ⟨j, path, tab', hj, ha⟩ := mem_postingsFrom.mp ha
  obtain ⟨hdoc', key, hl⟩ := mem_postingsOf.mp ha
  have hsame := hs.idAt_inj hi hj (hdoc.symm.trans hdoc')
  obtain ⟨_, rfl⟩ := Prod.mk.inj hsame
  have hparsed := tableOf_parsed (hlen f hf) htab
  exact ⟨occurrences_pos.mpr (hparsed.key key _ hl).2, hparsed.numElements_eq hl⟩

theorem Crawled.contains_iff (hs : Crawled s files) (hlen : ∀ f ∈ files, f.contents.length < 2 ^ 31) (hf : f ∈ files)
    {i : Nat} {tab : WordTable} (hi : (indexed files)[i]? = some (f.path, tab)) (htab : tableOf f.contents = some tab)
    (word : Bytes) :
    Contains (postingsFrom (indexed files)) word (DocTable.idAt i) ↔ 0 < occurrences f.contents word := by
  constructor
  · rintro ⟨a, ha, rfl, hdoc⟩
    exact (hs.posting_counts hlen hf hi htab ha hdoc).1
  · intro hpos
    obtain ⟨t, ht, rfl⟩ := List.mem_map.mp (occurrences_pos.mp hpos)
    obtain ⟨wp, hl, hword⟩ := (tableOf_parsed (hlen f hf) htab).word t ht
    exact ⟨⟨wp.word, DocTable.idAt i, wp.positions⟩,
      mem_postingsFrom.mpr ⟨i, _, _, hi, mem_postingsOf.mpr ⟨rfl, _, hl⟩⟩, hword, rfl⟩

theorem Crawled.rankSum_eq (hs : Crawled s files) (hlen : ∀ f ∈ files, f.contents.length < 2 ^ 31) (hf : f ∈ files)
    {i : Nat} {tab : WordTable} (hi : (indexed files)[i]? = some (f.path, tab)) (htab : tableOf f.contents = some tab)
    {query : List Bytes} (hall : ContainsAll (postingsFrom (indexed files)) query (DocTable.idAt i)) :
    rankSum (postingsFrom (indexed files)) query (DocTable.idAt i) = (query.map (occurrences f.contents)).sum := by
  rw [rankSum]
  congr 1
  apply List.map_congr_left
  intro word hword
  rw [positionCount]
  cases hfind : (postingsFrom (indexed files)).find? fun a => decide (a.word = word ∧ a.docId = DocTable.idAt i) with
  | none =>
      obtain ⟨a, ha, haword, hdoc⟩ := hall word hword
      have hnot := List.find?_eq_none.mp hfind a ha
      exact absurd (decide_eq_true ⟨haword, hdoc⟩) hnot
  | some a =>
      have hsome := List.find?_some hfind
      obtain ⟨rfl, hdoc⟩ := of_decide_eq_true hsome
      exact (hs.posting_counts hlen hf hi htab (List.mem_of_find?_eq_some hfind) hdoc).2

end

/-- The files with all the words, each with how often it has them. -/
noncomputable def found (files : List File) (query : List Bytes) : List QueryResult :=
  (files.filter fun f => ∀ w ∈ query, 0 < occurrences f.contents w).map fun f =>
    ⟨f.path, ((query.map (occurrences f.contents)).sum : Nat)⟩

/-- What a crawl has built of some files, which it visited in this order. -/
structure Describes (s : Crawl) (order files : List File) : Prop where
  perm : order.Perm files
  small : ∀ f ∈ order, f.contents.length < 2 ^ 31
  crawled : Crawled s order
  parsed : ∀ f ∈ order, ∃ r, parseIntoWordPositionsTable f.contents = .ok r

section

variable {s : Crawl} {order files : List File} {query : List Bytes}

/-- The documents are the files with words. -/
theorem Describes.document (h : Describes s order files) {name : Bytes} {docId : DocID} :
    s.docTable.idToName.lookup docId = some name ↔ ∃ f ∈ order, ∃ i tab, (indexed order)[i]? = some (f.path, tab) ∧
      tableOf f.contents = some tab ∧ f.path = name ∧ docId = DocTable.idAt i := by
  rw [h.crawled.docs.idToName]
  constructor
  · rintro ⟨i, hi, rfl⟩
    rw [List.getElem?_map, Option.map_eq_some_iff] at hi
    obtain ⟨⟨_, tab⟩, hi, rfl⟩ := hi
    obtain ⟨f, hf, hpath, htab⟩ := mem_indexed.mp (List.mem_of_getElem? hi)
    exact ⟨f, hf, i, tab, by rw [hi, hpath], htab, hpath, rfl⟩
  · rintro ⟨f, _, i, tab, hi, _, rfl, rfl⟩
    exact ⟨i, by rw [List.getElem?_map, hi]; rfl, rfl⟩

/-- A file with a word has a table, and so a place among the documents. -/
theorem Describes.indexed_of_occurs (h : Describes s order files) {f : File} (hf : f ∈ order) {word : Bytes}
    (hpos : 0 < occurrences f.contents word) :
    ∃ (i : Nat) (tab : WordTable), (indexed order)[i]? = some (f.path, tab) ∧ tableOf f.contents = some tab := by
  obtain ⟨r, hr⟩ := h.parsed f hf
  rcases parse_ok (h.small f hf) hr with ⟨_, hnil⟩ | ⟨tab, rfl, _, _⟩
  · rw [occurrences_pos, hnil] at hpos
    cases hpos
  · have htab := tableOf_eq_some.mpr hr
    obtain ⟨i, hi⟩ := List.getElem?_of_mem (mem_indexed.mpr ⟨f, hf, rfl, htab⟩)
    exact ⟨i, tab, hi, htab⟩

theorem Describes.containsAll_iff (h : Describes s order files) {f : File} (hf : f ∈ order) {i : Nat} {tab : WordTable}
    (hi : (indexed order)[i]? = some (f.path, tab)) (htab : tableOf f.contents = some tab) :
    ContainsAll (postingsFrom (indexed order)) query (DocTable.idAt i) ↔
      ∀ w ∈ query, 0 < occurrences f.contents w :=
  forall_congr' fun w => imp_congr_right fun _ => h.crawled.contains_iff h.small hf hi htab w

/-- The documents with all the words are the files that have them. -/
theorem Describes.mem_found (h : Describes s order files) (hquery : query ≠ []) {res : QueryResult} :
    (∃ docId, ContainsAll (postingsFrom (indexed order)) query docId ∧
      s.docTable.idToName.lookup docId = some res.documentName ∧
      res.rank = (rankSum (postingsFrom (indexed order)) query docId : Nat)) ↔ res ∈ found files query := by
  rw [found, List.mem_map]
  constructor
  · rintro ⟨docId, hcontains, hname, hrank⟩
    obtain ⟨f, hf, i, tab, hi, htab, hpath, rfl⟩ := h.document.mp hname
    have hwords := (h.containsAll_iff hf hi htab).mp hcontains
    refine ⟨f, List.mem_filter.mpr ⟨h.perm.mem_iff.mp hf, decide_eq_true hwords⟩, ?_⟩
    rw [h.crawled.rankSum_eq h.small hf hi htab hcontains] at hrank
    rw [← hrank, hpath]
  · rintro ⟨f, hmem, rfl⟩
    obtain ⟨hf, hwords⟩ := List.mem_filter.mp hmem
    replace hf := h.perm.mem_iff.mpr hf
    replace hwords := of_decide_eq_true hwords
    obtain ⟨word, rest, rfl⟩ := List.exists_cons_of_ne_nil hquery
    obtain ⟨i, tab, hi, htab⟩ := h.indexed_of_occurs hf (hwords word (by simp))
    have hcontains := (h.containsAll_iff hf hi htab).mpr hwords
    refine ⟨DocTable.idAt i, hcontains, h.document.mpr ⟨f, hf, i, tab, hi, htab, rfl, rfl⟩, ?_⟩
    rw [h.crawled.rankSum_eq h.small hf hi htab hcontains]

theorem Describes.registered (h : Describes s order files) (hquery : query ≠ []) {docId : DocID}
    (hall : ContainsAll (postingsFrom (indexed order)) query docId) :
    ∃ name, s.docTable.idToName.lookup docId = some name := by
  obtain ⟨word, rest, rfl⟩ := List.exists_cons_of_ne_nil hquery
  obtain ⟨a, ha, _, rfl⟩ := hall word (by simp)
  obtain ⟨i, path, tab, hi, ha⟩ := mem_postingsFrom.mp ha
  have hpath : ((indexed order).map Prod.fst)[i]? = some path := by rw [List.getElem?_map, hi]; rfl
  exact ⟨path, (h.crawled.docs.idToName _ _).mpr ⟨i, hpath, (mem_postingsOf.mp ha).1⟩⟩

end

end CrawlFileTree

namespace BuildFileIndex

open CrawlFileTree Dir FileParser OpenFile QueryProcessor WriteIndex

def EXIT_SUCCESS : Int := 0

def EXIT_FAILURE : Int := 1

/-- With what stat finds under the first argument, and the file that the second
one names. -/
def main (qsort : Sorter fun e1 e2 => alphasort e1 e2 < 0) (argc : Nat) (crawlRootDir : Bytes) (root : Option Target)
    (indexFile : OpenFile) : Run (Int × OpenFile) := do
  if argc ≠ 3 then return (EXIT_FAILURE, indexFile)
  match ← crawlFileTree qsort crawlRootDir root with
  | none => return (EXIT_FAILURE, indexFile)
  | some s =>
      let (idxLen, indexFile) ← (writeIndex s.index s.docTable).run handle indexFile
      if idxLen ≤ 0 then return (EXIT_FAILURE, indexFile)
      return (EXIT_SUCCESS, indexFile)

theorem main_success {qsort : Sorter fun e1 e2 => alphasort e1 e2 < 0} {argc : Nat} {rootDir : Bytes}
    {root : Option Target} {before file : OpenFile}
    (h : main qsort argc rootDir root before = .ok (EXIT_SUCCESS, file)) :
    ∃ s size, crawlFileTree qsort rootDir root = .ok (some s) ∧
      (writeIndex s.index s.docTable).run handle before = .ok (size, file) ∧ 0 < size := by
  have hfailure {f : OpenFile} (hret : (.ok (EXIT_FAILURE, f) : Run (Int × OpenFile)) = .ok (EXIT_SUCCESS, file)) :
      False := absurd (Prod.mk.inj (Except.ok.inj hret)).1 (by decide)
  rw [main] at h
  split at h
  · exact absurd h hfailure
  · obtain ⟨crawled, hcrawl, h⟩ := Run.bind_eq_ok.mp h
    cases crawled with
    | none => exact absurd h hfailure
    | some s =>
        obtain ⟨⟨size, file'⟩, hwrite, h⟩ := Run.bind_eq_ok.mp h
        dsimp only at h
        split at h
        · exact absurd h hfailure
        · next hpos =>
          obtain ⟨_, rfl⟩ := Prod.mk.inj (Except.ok.inj h)
          exact ⟨s, size, hcrawl, hwrite, Int.lt_of_not_ge hpos⟩

/-- A directory tree, and the file that the program has written for it. -/
structure BuiltIndex where
  rootDir : Bytes
  tree : Dir
  file : OpenFile
  valid : tree.Valid MAX_NUM_DIR_ENTRIES
  small : ∀ f ∈ tree.files rootDir, f.contents.length < 2 ^ 31
  collisionFree : CrawlFileTree.CollisionFree (tree.files rootDir)
  paths : ∀ f ∈ tree.files rootDir, f.path.length < 2 ^ 16
  words : ∀ w ∈ CrawlFileTree.wordsOf (tree.files rootDir), w.length < 2 ^ 16
  built : ∃ qsort before, main qsort 3 rootDir (some (.dir tree)) before = .ok (EXIT_SUCCESS, file)

namespace BuiltIndex

variable (x : BuiltIndex)

def files : List File := x.tree.files x.rootDir

theorem length_le {n : Nat} (h : n < 2 ^ 16) (hint : 0 ≤ int16 n) : n ≤ 32767 := by
  rw [int16, Int.bmod_def] at hint
  split at hint <;> omega

/-- An index file that can be opened was written from what the crawl built. -/
theorem exists_indexedFile (hfile : ¬x.file.Huge) : ∃ (y : IndexedFile) (order : List File), y.file = x.file ∧
    y.adds = postingsFrom (indexed order) ∧ Describes ⟨y.dt, y.mi⟩ order x.files := by
  obtain ⟨qsort, before, hmain⟩ := x.built
  obtain ⟨s, size, hcrawl, hwrite, hpos⟩ := main_success hmain
  obtain ⟨order, horder, hs, hb, hparsed⟩ := crawlFileTree_built qsort x.rootDir x.valid x.small x.collisionFree hcrawl
  have hcut : cutSize s.index s.docTable < 2 ^ 31 :=
    (writeIndex_counts hwrite (Int.le_of_lt hpos)).resolve_left hfile
  obtain ⟨hnames, hwords⟩ := writable_of_written hcut hwrite (Int.le_of_lt hpos)
  have hlen : ∀ f ∈ order, f.contents.length < 2 ^ 31 := fun f hf => x.small f (horder.mem_iff.mp hf)
  have hname : ∀ name ∈ (indexed order).map Prod.fst, name ≠ [] ∧ name.length ≤ 32767 := by
    intro name hname
    obtain ⟨i, hi⟩ := List.getElem?_of_mem hname
    have hpair : (⟨DocTable.idAt i, name⟩ : HTKeyValue Bytes) ∈ s.docTable.idToName.pairs :=
      HashTable.mem_pairs.mpr ((hs.docs.idToName _ _).mpr ⟨i, hi, rfl⟩)
    obtain ⟨f, hf, rfl⟩ := names_indexed hname
    have hwritable := hnames _ hpair
    rw [NameWritable] at hwritable
    refine ⟨?_, length_le (x.paths f (horder.mem_iff.mp hf)) (Int.le_of_lt hwritable)⟩
    intro hempty
    rw [hempty] at hwritable
    exact absurd hwritable (show ¬0 < int16 ((0 : Nat) : Int) by decide)
  have hword : ∀ a ∈ postingsFrom (indexed order), a.word.length ≤ 32767 := by
    intro a ha
    obtain ⟨wp, hl, hsame⟩ := hs.index.word a ha
    have hwritable : 0 ≤ int16 wp.word.length := hwords ⟨_, wp⟩ (HashTable.mem_pairs.mpr hl)
    rw [hsame] at hwritable
    exact length_le (x.words _ ((wordsOf_perm horder).mem_iff.mp (word_mem hlen ha))) hwritable
  have hrep := representable_of_build hb.docTable hb.index hname hword
  have hregistered : ∀ a ∈ postingsFrom (indexed order), ∃ name, s.docTable.getDocName a.docId = .ok (some name) := by
    intro a ha
    obtain ⟨i, path, tab, hi, ha⟩ := mem_postingsFrom.mp ha
    exact ⟨path, hs.getDocName.mpr ⟨i, tab, hi, (mem_postingsOf.mp ha).1⟩⟩
  refine ⟨⟨_, _, s.docTable, s.index, x.file, hb.docTable, hb.index, hname, hword, ?_, hregistered, before, size,
    hwrite⟩, order, rfl, rfl, ⟨horder, hlen, hs, hparsed⟩⟩
  rw [hrep.indexSize_eq]
  exact hcut

variable {x} {y : IndexedFile} {order : List File} {query : List Bytes}

end BuiltIndex

end BuildFileIndex

end SearchEngine
