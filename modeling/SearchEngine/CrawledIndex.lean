import SearchEngine.CrawlInvariant
import SearchEngine.LargeIndex

/-! Index files that WriteIndex has written of what a crawl has built: the
documents and words in them can be looked up, whatever their lengths. -/

namespace SearchEngine

open FileProgram HashTableReader Layout OpenFile WriteIndex

/-- As many characters as the 16-bit field says that there are. -/
def storedChars (s : Bytes) : Bytes := s.take (int16 s.length).toNat

theorem length_storedChars (s : Bytes) : (storedChars s).length = (int16 s.length).toNat := by
  rw [storedChars, List.length_take, Nat.min_eq_left (toNat_int16_le s.length)]

theorem storedChars_le (s : Bytes) : (storedChars s).length ≤ 32767 := by
  rw [length_storedChars, int16, Int.bmod_def]
  split <;> omega

theorem storedChars_of_le {s : Bytes} (h : s.length ≤ 32767) : storedChars s = s := (take_length_int16 h).2

/-- The postings that the index file has for a word: those of the first element
of the chain that is stored with its characters. -/
def MemIndex.stored (mi : MemIndex) (word : Bytes) : Option WordPostings :=
  ((mi.chain (hashString word)).payloads.find? fun kv => storedChars kv.value.word = word).map HTKeyValue.value

section

variable {image : FileImage} {off : Nat}

theorem lookupDocID_stored {t : HashTable Bytes} (ht : TableAt cutDocFormat image off t)
    (hnames : ∀ kv ∈ t.pairs, NameWritable kv) (docId : UInt64) :
    Returns image (DocTableReader.lookupDocID (readerAt off t) docId) ((t.lookup docId).map storedChars) := by
  apply lookup_key_returns (DocTableReader.matchDocID docId) storedChars ht docId
  intro kv hkv q hq _
  have hlen : int16 kv.value.length = (storedChars kv.value).length := by
    rw [length_storedChars, Int.toNat_of_nonneg (Int.le_of_lt (hnames kv hkv))]
  have hencode : cutDocFormat.encode q kv =
      (DoctableElementHeader.mk kv.key (storedChars kv.value).length).toDisk ++ storedChars kv.value := by
    rw [← hlen]
    rfl
  rw [hencode] at hq
  exact DocTableReader.matchDocID_holds (storedChars_le kv.value) kv.key docId hq

theorem lookupWord_stored {mi : MemIndex} (ht : TableAt cutWordFormat image off mi)
    (hwords : ∀ kv ∈ mi.pairs, WordWritable kv) (word : Bytes) :
    ∃ res, Returns image (IndexTableReader.lookupWord (readerAt off mi) word) res ∧
      match res with
      | none => mi.stored word = none
      | some didtr => ∃ wp, mi.stored word = some wp ∧ IndexTableReader.ReadsPostings image wp didtr := by
  obtain ⟨res, hres, hspec⟩ := lookup_first
    (R := fun kv => IndexTableReader.MatchesLetters image (storedChars kv.value.word) word kv.value) ht
    (hashString word) (by
      intro kv hkv q hq hfit
      have hlen : int16 kv.value.word.length = (storedChars kv.value.word).length := by
        rw [length_storedChars, Int.toNat_of_nonneg (hwords kv (mem_pairs_of_chain hkv))]
      have hencode : cutWordFormat.encode q kv =
          (WordPostingsHeader.mk (storedChars kv.value.word).length
            (postingFormat.tableSize kv.value.postings)).toDisk ++
          (storedChars kv.value.word ++
            postingFormat.tableBytes (q + 6 + (storedChars kv.value.word).length) kv.value.postings) := by
        rw [← hlen, length_storedChars]
        rfl
      have hsize : cutWordFormat.size kv =
          6 + (storedChars kv.value.word).length + postingFormat.tableSize kv.value.postings := by
        rw [length_storedChars]
        rfl
      rw [hencode] at hq
      rw [hsize] at hfit
      exact IndexTableReader.matchWord_holds (storedChars_le kv.value.word) kv.value word hq hfit)
  refine ⟨res, hres, ?_⟩
  cases res with
  | none =>
      rw [MemIndex.stored, Option.map_eq_none_iff, List.find?_eq_none]
      intro kv hkv
      have hother : storedChars kv.value.word ≠ word := hspec kv hkv
      simpa using hother
  | some didtr =>
      obtain ⟨pre, kv, post, hsplit, hpre, hword, hreads⟩ := hspec
      refine ⟨kv.value, ?_, hreads⟩
      rw [MemIndex.stored, Option.map_eq_some_iff]
      refine ⟨kv, ?_, rfl⟩
      rw [List.find?_eq_some_iff_append]
      refine ⟨by simpa using hword, pre, post, hsplit, ?_⟩
      intro kv' hkv'
      have hother : storedChars kv'.value.word ≠ word := hpre kv' hkv'
      simpa using hother

end

namespace WriteIndex.CutFile

variable {mi : MemIndex} {dt : DocTable} {image : FileImage}

theorem docs (h : CutFile mi dt image) : TableAt cutDocFormat image 16 dt.idToName := by
  obtain ⟨checksum, _, hall⟩ := h.holds
  have hfits := h.fits
  rw [FileImage.holds_append, IndexFileHeader.length_toDisk, Nat.zero_add, cutTables, FileImage.holds_append] at hall
  exact ⟨hall.2.1, by omega⟩

theorem words (h : CutFile mi dt image) :
    TableAt cutWordFormat image (16 + cutDocFormat.tableSize dt.idToName) mi := by
  obtain ⟨checksum, _, hall⟩ := h.holds
  have hfits := h.fits
  rw [FileImage.holds_append, IndexFileHeader.length_toDisk, Nat.zero_add, cutTables, FileImage.holds_append,
    ElementFormat.length_tableBytes] at hall
  exact ⟨hall.2.2, by omega⟩

end WriteIndex.CutFile

namespace CrawlFileTree

/-- Every document that the index knows has its name in the table. -/
structure Linked (s : Crawl) : Prop where
  docs : ∃ names, DocTable.Registers s.docTable names
  index : ∃ adds, MemIndex.Indexes s.index adds ∧ ∀ a ∈ adds, (s.docTable.idToName.lookup a.docId).isSome

theorem Linked.name {s : Crawl} (h : Linked s) {key : UInt64} {docId : DocID} {p : Postings}
    (hp : s.index.postingsAt key docId = some p) : (s.docTable.idToName.lookup docId).isSome := by
  obtain ⟨adds, hidx, hreg⟩ := h.index
  obtain ⟨a, ha, _, rfl, _⟩ := (hidx.entries key docId p).mp hp
  exact hreg a ha

theorem add_linked {s : Crawl} {docTable : DocTable} {docId : DocID} {path : Bytes} (hs : Linked s)
    (hadd : s.docTable.add path = .ok (docTable, docId)) :
    Linked ⟨docTable, s.index⟩ ∧ (docTable.idToName.lookup docId).isSome := by
  obtain ⟨names, hdocs⟩ := hs.docs
  obtain ⟨adds, hidx, hreg⟩ := hs.index
  rcases DocTable.add_ok hdocs hadd with ⟨rfl, hfound⟩ | ⟨_, rfl, hdocs'⟩
  · refine ⟨hs, ?_⟩
    obtain ⟨i, name, hi, _, rfl⟩ := (hdocs.nameToId _ _).mp hfound
    rw [(hdocs.idToName _ _).mpr ⟨i, hi, rfl⟩]
    rfl
  · have hkeep {id : DocID} {name : Bytes} (h : s.docTable.idToName.lookup id = some name) :
        docTable.idToName.lookup id = some name := by
      obtain ⟨i, hi, rfl⟩ := (hdocs.idToName _ _).mp h
      refine (hdocs'.idToName _ _).mpr ⟨i, ?_, rfl⟩
      rw [List.getElem?_append_left (List.getElem?_eq_some_iff.mp hi).1, hi]
    refine ⟨⟨⟨_, hdocs'⟩, adds, hidx, ?_⟩, ?_⟩
    · intro a ha
      obtain ⟨name, hname⟩ := Option.isSome_iff_exists.mp (hreg a ha)
      rw [hkeep hname]
      rfl
    · have hlast : (names ++ [path])[names.length]? = some path := by simp
      rw [(hdocs'.idToName _ _).mpr ⟨_, hlast, rfl⟩]
      rfl

theorem moveWords_linked {docTable : DocTable} {docId : DocID} (hdoc : (docTable.idToName.lookup docId).isSome)
    (fuel : Nat) (tab : WordTable) (it : HTIterator) {index index' : MemIndex}
    (hs : Linked ⟨docTable, index⟩) (h : moveWords docId fuel tab it index = .ok index') :
    Linked ⟨docTable, index'⟩ := by
  induction fuel generalizing tab it index with
  | zero => cases h
  | succ fuel ih =>
      rw [moveWords] at h
      obtain ⟨valid, _, h⟩ := Run.bind_eq_ok.mp h
      split at h
      · obtain ⟨⟨tab', it', removed⟩, _, h⟩ := Run.bind_eq_ok.mp h
        cases removed with
        | none => cases h
        | some kv =>
            obtain ⟨index₁, hadd, h⟩ := Run.bind_eq_ok.mp h
            refine ih tab' it' ?_ h
            obtain ⟨adds, hidx, hreg⟩ := hs.index
            have hall : index.addAll [⟨kv.value.word, docId, kv.value.positions⟩] = .ok index₁ := by
              simp [MemIndex.addAll, hadd]
            refine ⟨hs.docs, _, MemIndex.addAll_indexes hidx hall, ?_⟩
            intro a ha
            rcases List.mem_append.mp ha with ha | ha
            · exact hreg a ha
            · rw [List.mem_singleton.mp ha]
              exact hdoc
      · obtain rfl := Except.ok.inj h
        exact hs

theorem handleFile_linked {s s' : Crawl} {file : File} (hs : Linked s) (h : handleFile s file = .ok s') :
    Linked s' := by
  rw [handleFile] at h
  obtain ⟨⟨fileBuf, fileLen⟩, _, h⟩ := Run.bind_eq_ok.mp h
  obtain ⟨_, _, h⟩ := Run.bind_eq_ok.mp h
  obtain ⟨parsed, _, h⟩ := Run.bind_eq_ok.mp h
  cases parsed with
  | none =>
      obtain rfl := Except.ok.inj h
      exact hs
  | some tab =>
      obtain ⟨⟨docTable, docId⟩, hadd, h⟩ := Run.bind_eq_ok.mp h
      obtain ⟨it, _, h⟩ := Run.bind_eq_ok.mp h
      obtain ⟨index, hmove, h⟩ := Run.bind_eq_ok.mp h
      obtain rfl := Except.ok.inj h
      obtain ⟨hs', hdoc⟩ := add_linked hs hadd
      exact moveWords_linked hdoc _ tab it hs' hmove

theorem foldlM_linked {α : Type} {handle : Crawl → α → Run Crawl}
    (hhandle : ∀ {s a s'}, Linked s → handle s a = .ok s' → Linked s') {as : List α} {s s' : Crawl} (hs : Linked s)
    (h : as.foldlM handle s = .ok s') : Linked s' := by
  induction as generalizing s with
  | nil =>
      obtain rfl := Except.ok.inj h
      exact hs
  | cons a as ih =>
      rw [List.foldlM_cons] at h
      obtain ⟨s₁, hone, h⟩ := Run.bind_eq_ok.mp h
      exact ih (hhandle hs hone) h

variable (qsort : Sorter fun e1 e2 => alphasort e1 e2 < 0)

theorem handleDir_linked (depth : Nat) (dirPath : Bytes) (d : Dir) {s s' : Crawl} (hs : Linked s)
    (h : handleDir qsort depth dirPath d s = .ok s') : Linked s' := by
  induction depth generalizing dirPath d s s' with
  | zero => cases h
  | succ depth ih =>
      rw [handleDir] at h
      refine foldlM_linked ?_ hs h
      intro s e s' hs he
      rw [handleEntry] at he
      cases htarget : e.target with
      | file contents =>
          rw [htarget] at he
          exact handleFile_linked hs he
      | dir subDir =>
          rw [htarget] at he
          exact ih e.pathName subDir hs he

/-- Whatever a crawl has built. -/
theorem crawlFileTree_linked {rootDir : Bytes} {root : Option Dir.Target} {s : Crawl}
    (h : crawlFileTree qsort rootDir root = .ok (some s)) : Linked s := by
  cases root with
  | none => cases h
  | some target =>
      cases target with
      | file contents => cases h
      | dir d =>
          obtain ⟨docTable, index, hdocs, hindex, hstart⟩ := start_crawled
          simp only [crawlFileTree, hdocs, hindex, Run.ok_bind] at h
          obtain ⟨s', hrun, h⟩ := Run.bind_eq_ok.mp h
          obtain rfl := Option.some.inj (Except.ok.inj h)
          refine handleDir_linked qsort (d.depth + 1) rootDir d ⟨⟨_, hstart.docs⟩, _, hstart.index, ?_⟩ hrun
          simp [postingsFrom, indexed]

end CrawlFileTree

/-- An index file that WriteIndex has written of what a crawl has built. -/
structure CrawledFile where
  crawl : CrawlFileTree.Crawl
  file : OpenFile
  crawled : ∃ qsort rootDir root, CrawlFileTree.crawlFileTree qsort rootDir root = .ok (some crawl)
  written : ∃ f size, (writeIndex crawl.index crawl.docTable).run handle f = .ok (size, file) ∧ 0 ≤ size

namespace CrawledFile

variable (x : CrawledFile)

/-- The tables are small enough for the 32-bit offsets. -/
def OffsetsFit : Prop := cutSize x.crawl.index x.crawl.docTable < 2 ^ 31

def dtr : HashTableReader := readerAt 16 x.crawl.docTable.idToName

def itr : HashTableReader := readerAt (16 + cutDocFormat.tableSize x.crawl.docTable.idToName) x.crawl.index

theorem linked : CrawlFileTree.Linked x.crawl := by
  obtain ⟨qsort, rootDir, root, h⟩ := x.crawled
  exact CrawlFileTree.crawlFileTree_linked qsort h

/-- Otherwise the file cannot be opened. -/
theorem opens_large (hlarge : ¬x.OffsetsFit) (validate : Bool) :
    (FileIndexReader.openTables validate).run handle x.file = .error .verify333 := by
  obtain ⟨f, size, hrun, hsize⟩ := x.written
  rcases writeIndex_counts hrun hsize with hhuge | hfit
  · exact FileIndexReader.openTables_huge validate hhuge
  · exact absurd hfit hlarge

variable {x}

theorem OffsetsFit.writable (hfit : x.OffsetsFit) : (∀ kv ∈ x.crawl.docTable.idToName.pairs, NameWritable kv) ∧
    ∀ kv ∈ x.crawl.index.pairs, WordWritable kv := by
  obtain ⟨f, size, hrun, hsize⟩ := x.written
  exact writable_of_written hfit hrun hsize

theorem OffsetsFit.cutFile (hfit : x.OffsetsFit) :
    CutFile x.crawl.index x.crawl.docTable x.file.image ∧ x.file.linked = true := by
  obtain ⟨hnames, hwords⟩ := hfit.writable
  obtain ⟨f, size, hrun, _⟩ := x.written
  obtain ⟨file, hrun', hlinked, hcut⟩ := writeIndex_cutFile hnames hwords hfit f
  obtain ⟨_, rfl⟩ := Prod.mk.inj (Except.ok.inj (hrun.symm.trans hrun'))
  exact ⟨hcut, hlinked⟩

theorem OffsetsFit.opens (hfit : x.OffsetsFit) (validate : Bool) :
    ∃ pos, (FileIndexReader.openTables validate).run handle x.file =
      .ok ((x.dtr, x.itr), ⟨x.file.image, pos, true⟩) := by
  obtain ⟨hcut, hlinked⟩ := hfit.cutFile
  obtain ⟨pos, hrun⟩ := FileIndexReader.openTables_headed hcut hcut.docs hcut.words validate x.file.pos
  have hstate : x.file = ⟨x.file.image, x.file.pos, true⟩ := by rw [← hlinked]
  rw [← hstate] at hrun
  exact ⟨pos, hrun⟩

theorem OffsetsFit.lookupDocID (hfit : x.OffsetsFit) (docId : DocID) :
    Returns x.file.image (DocTableReader.lookupDocID x.dtr docId)
      ((x.crawl.docTable.idToName.lookup docId).map storedChars) :=
  lookupDocID_stored hfit.cutFile.1.docs hfit.writable.1 docId

theorem OffsetsFit.lookupWord (hfit : x.OffsetsFit) (word : Bytes) :
    ∃ res, Returns x.file.image (IndexTableReader.lookupWord x.itr word) res ∧
      match res with
      | none => x.crawl.index.stored word = none
      | some didtr => ∃ wp, x.crawl.index.stored word = some wp ∧
          IndexTableReader.ReadsPostings x.file.image wp didtr :=
  lookupWord_stored hfit.cutFile.1.words hfit.writable.2 word

/-- Every document that has a word has its name in the file. -/
theorem registered {word : Bytes} {wp : WordPostings} (hword : x.crawl.index.stored word = some wp) {docId : DocID}
    {p : Postings} (hp : wp.postings.lookup docId = some p) :
    ∃ name, x.crawl.docTable.idToName.lookup docId = some name := by
  rw [MemIndex.stored, Option.map_eq_some_iff] at hword
  obtain ⟨kv, hfind, rfl⟩ := hword
  have hkv := mem_pairs_of_chain (List.mem_of_find?_eq_some hfind)
  have hpost : x.crawl.index.postingsAt kv.key docId = some p := by
    rw [MemIndex.postingsAt, HashTable.mem_pairs.mp hkv]
    exact hp
  exact Option.isSome_iff_exists.mp (x.linked.name hpost)

end CrawledFile

/-- A directory of one file, with one word. -/
def oneFileTree : Dir := .file (ascii ['d']) (ascii ['a']) .nil

theorem exists_crawledFile : ∃ x : CrawledFile, x.OffsetsFit ∧
    CrawlFileTree.crawlFileTree (mergeSorter _) (ascii ['.']) (some (.dir oneFileTree)) = .ok (some x.crawl) := by
  have hrun : (do
      let docTable ← DocTable.allocate
      let index ← MemIndex.allocate
      let s ← CrawlFileTree.handleFile ⟨docTable, index⟩ ⟨ascii ['.', '/', 'd'], ascii ['a']⟩
      return decide (cutSize s.index s.docTable < 2 ^ 31) &&
        (s.docTable.idToName.pairs.all fun kv => decide (0 < int16 kv.value.length)) &&
        s.index.pairs.all fun kv => decide (0 ≤ int16 kv.value.word.length)) = .ok true := by
    decide +kernel
  obtain ⟨docTable, hdocs, hrun⟩ := Run.bind_eq_ok.mp hrun
  obtain ⟨index, hindex, hrun⟩ := Run.bind_eq_ok.mp hrun
  obtain ⟨s, hfile, hrun⟩ := Run.bind_eq_ok.mp hrun
  obtain ⟨hrest, hwords⟩ := Bool.and_eq_true_iff.mp (Except.ok.inj hrun)
  obtain ⟨hsmall, hnames⟩ := Bool.and_eq_true_iff.mp hrest
  have hsort : (mergeSorter fun e1 e2 => decide (CrawlFileTree.alphasort e1 e2 < 0)).sort
      (CrawlFileTree.firstPass (ascii ['.']) 0 oneFileTree) =
        [⟨ascii ['.', '/', 'd'], .file (ascii ['a'])⟩] :=
    List.perm_singleton.mp (Sorter.perm _ _)
  have hcrawl : CrawlFileTree.crawlFileTree (mergeSorter _) (ascii ['.']) (some (.dir oneFileTree)) =
      .ok (some s) := by
    simp only [CrawlFileTree.crawlFileTree, hdocs, hindex, Run.ok_bind, CrawlFileTree.handleDir, hsort,
      List.foldlM_cons, List.foldlM_nil, CrawlFileTree.handleEntry, hfile, Run.pure_eq_ok]
  have hnames' : ∀ kv ∈ s.docTable.idToName.pairs, NameWritable kv := by
    intro kv hkv
    simpa [NameWritable] using List.all_eq_true.mp hnames kv hkv
  have hwords' : ∀ kv ∈ s.index.pairs, WordWritable kv := by
    intro kv hkv
    simpa [WordWritable] using List.all_eq_true.mp hwords kv hkv
  have hsmall' := of_decide_eq_true hsmall
  obtain ⟨file, hwrite, _⟩ := writeIndex_cutFile hnames' hwords' hsmall' ⟨.empty, 0, false⟩
  exact ⟨⟨s, file, ⟨_, _, _, hcrawl⟩, ⟨_, _, hwrite, Int.natCast_nonneg _⟩⟩, hsmall', hcrawl⟩

end SearchEngine
