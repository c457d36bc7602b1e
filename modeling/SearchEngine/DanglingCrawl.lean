import SearchEngine.DanglingIndex
import SearchEngine.WordRuns
import SearchEngine.CrawlOrder

/-! Parsing and crawling over the lists of LinkedList.c: which texts and trees
are indexed as they should be, with and without the freed nodes. -/

namespace SearchEngine

open DanglingTable DanglingList

structure DanglingWordPositions where
  word : Bytes
  positions : DanglingList UInt64

abbrev DanglingWordTable := DanglingTable DanglingWordPositions

namespace DanglingWordTable

open FileParser

def addWordPosition (tab : DanglingWordTable) (word : Bytes) (pos : Nat) : Run DanglingWordTable := do
  let hashKey := hashString word
  match ← tab.find hashKey with
  | some kv =>
      verify333 (kv.value.word = word)
      let positions ← kv.value.positions.append (payload pos)
      return tab.storeValue hashKey ⟨kv.value.word, positions⟩
  | none =>
      let positions ← DanglingList.allocate.append (payload pos)
      let (tab, _) ← tab.insert ⟨hashKey, ⟨word, positions⟩⟩
      return tab

/-- The loop of InsertContent hands these words to AddWordPosition, whatever
the table does with them. -/
def insertContent (tab : DanglingWordTable) (content : Bytes) : Run DanglingWordTable :=
  (scan none 0 content).foldlM (fun tab t => addWordPosition tab t.word t.pos) tab

def parseIntoWordPositionsTable (fileContents : Bytes) : Run (Option DanglingWordTable) := do
  let content := cString fileContents
  let fileLen := toInt content.length
  if fileLen = 0 then return none
  if (content.take fileLen.toNat).any fun c => c = 0 || ASCII_UPPER_BOUND < c then return none
  let tab ← DanglingTable.allocate 32
  let tab ← insertContent tab content
  if tab.numElements = 0 then return none
  return some tab

/-- What a client reads in the table: every pair, and the list of every pair. -/
def entries (tab : DanglingWordTable) : Run (List (UInt64 × Bytes × List UInt64)) :=
  tab.walk (fun es kv => return es ++ [(kv.key, kv.value.word, ← kv.value.positions.elements)]) []

/-- A client that reads the table finds what the other table holds. -/
def ReadsAs (tab : DanglingWordTable) (tab' : WordTable) : Prop :=
  ∃ es, tab.entries = .ok es ∧ es.Perm (tab'.pairs.map fun kv => (kv.key, kv.value.word, kv.value.positions.payloads))

section

variable {tab tab' : DanglingWordTable}

theorem addWordPosition_ok (h : tab.Freed) {word : Bytes} {pos : Nat}
    (hadd : tab.addWordPosition word pos = .ok tab') : tab'.Freed ∧ tab'.numElements = tab.numElements + 1 := by
  simp only [addWordPosition, h.find] at hadd
  by_cases hnil : (tab.chain (hashString word)).nodes = []
  · simp only [hnil, if_true, Run.ok_bind] at hadd
    obtain ⟨positions, _, hadd⟩ := Run.bind_eq_ok.mp hadd
    obtain ⟨⟨tab₁, old⟩, hins, hret⟩ := Run.bind_eq_ok.mp hadd
    obtain rfl : tab₁ = tab' := by simpa using hret
    exact insert_freed h hins
  · simp only [hnil, if_false, Run.error_bind] at hadd
    cases hadd

theorem addTokens_ok (h : tab.Freed) (tokens : List Token)
    (hadd : tokens.foldlM (fun tab t => addWordPosition tab t.word t.pos) tab = .ok tab') :
    tab'.Freed ∧ tab'.numElements = tab.numElements + tokens.length :=
  Run.foldlM_grows (fun _ _ _ h hadd => addWordPosition_ok h hadd) h hadd

theorem entries_freed (h : tab.Freed) (hne : tab.numElements ≠ 0) : tab.entries = .error .badAccess := by
  rw [entries, h.walk, if_neg hne]

end

theorem parse_eq {fileContents : Bytes} (hlen : fileContents.length < 2 ^ 31) :
    parseIntoWordPositionsTable fileContents =
      if (cString fileContents).any (fun c => ASCII_UPPER_BOUND < c) then .ok none
      else do
        let tab ← DanglingTable.allocate 32
        let tab ← (tokens fileContents).foldlM (fun tab t => addWordPosition tab t.word t.pos) tab
        if tab.numElements = 0 then return none
        return some tab := by
  have hle : (cString fileContents).length ≤ fileContents.length :=
    (List.takeWhile_sublist _).length_le
  have hint : toInt (cString fileContents).length = (cString fileContents).length := by
    apply toInt_of_lt
    omega
  simp only [parseIntoWordPositionsTable, hint, Int.toNat_natCast, List.take_length, any_nul, insertContent]
  by_cases hascii : (cString fileContents).any (fun c => ASCII_UPPER_BOUND < c) = true
  · simp [hascii]
  · obtain ⟨tab, halloc, _, hzero, _⟩ := allocate_freed (V := DanglingWordPositions) (n := 32) (by decide)
    simp only [hascii, tokens, halloc, Run.ok_bind]
    split
    · next hz =>
      have hnil : cString fileContents = [] := by
        apply List.eq_nil_of_length_eq_zero
        omega
      simp [hnil, scan, hzero]
    · simp

theorem parse_none {fileContents : Bytes} (hlen : fileContents.length < 2 ^ 31) (hnil : tokens fileContents = []) :
    parseIntoWordPositionsTable fileContents = .ok none := by
  rw [parse_eq hlen, hnil]
  split
  · rfl
  · obtain ⟨tab, halloc, _, hzero, _⟩ := allocate_freed (V := DanglingWordPositions) (n := 32) (by decide)
    simp [halloc, hzero]

/-- A call that comes back either found no word, or has a table in which every
node is gone. -/
theorem parse_ok {fileContents : Bytes} {r : Option DanglingWordTable} (hlen : fileContents.length < 2 ^ 31)
    (h : parseIntoWordPositionsTable fileContents = .ok r) :
    (tokens fileContents = [] ∧ r = none) ∨
      (tokens fileContents ≠ [] ∧ ∃ tab, r = some tab ∧ tab.Freed ∧ tab.numElements ≠ 0) := by
  by_cases hnil : tokens fileContents = []
  · rw [parse_none hlen hnil] at h
    exact .inl ⟨hnil, (Except.ok.inj h).symm⟩
  · rw [parse_eq hlen] at h
    split at h
    · next hhigh => exact absurd (if_pos hhigh) hnil
    · obtain ⟨tab₀, halloc, hfreed, hzero, _⟩ := allocate_freed (V := DanglingWordPositions) (n := 32) (by decide)
      rw [halloc, Run.ok_bind] at h
      obtain ⟨tab, hadd, hret⟩ := Run.bind_eq_ok.mp h
      obtain ⟨hfreed', hcount⟩ := addTokens_ok hfreed _ hadd
      have hne : tab.numElements ≠ 0 := by
        rw [hcount, hzero, Nat.zero_add]
        exact fun he => hnil (List.eq_nil_of_length_eq_zero he)
      rw [if_neg hne] at hret
      exact .inr ⟨hnil, tab, (Except.ok.inj hret).symm, hfreed', hne⟩

theorem not_readsAs {tab : DanglingWordTable} (h : tab.Freed) (hne : tab.numElements ≠ 0) (tab' : WordTable) :
    ¬tab.ReadsAs tab' := by
  rintro ⟨es, hes, _⟩
  rw [entries_freed h hne] at hes
  cases hes

theorem tokens_of_letterless {s : Bytes} (hascii : Ascii s) (h : ∀ c ∈ s, isalpha c = false) : tokens s = [] := by
  apply List.eq_nil_iff_forall_not_mem.mpr
  intro t ht
  obtain ⟨q, hrun, _⟩ := (mem_tokens hascii t).mp ht
  obtain ⟨c, hc, hletter⟩ := (exists_letter_iff s).mpr ⟨t.pos, q, hrun⟩
  rw [h c hc] at hletter
  cases hletter

/-- On the lists of LinkedList.c the table is right only for a text without a
letter: the nodes of any other table are gone. Without the freed nodes it is
right unless the text ends in a letter, as the word there is not recorded. -/
theorem parse_exact_iff (s : Bytes) (hascii : Ascii s) (hlen : s.length < 2 ^ 31) (hfree : FileParser.CollisionFree s) :
    ((∃ r, parseIntoWordPositionsTable s = .ok r ∧ (r.isSome = true ↔ ∃ c ∈ s, isalpha c = true) ∧
      ∀ tab ∈ r, ∃ tab', ReadsAs tab tab' ∧ ExactTable s tab') ↔ ∀ c ∈ s, isalpha c = false) ∧
    ((∃ r, FileParser.parseIntoWordPositionsTable s = .ok r ∧ (r.isSome = true ↔ ∃ c ∈ s, isalpha c = true) ∧
      ∀ tab ∈ r, ExactTable s tab) ↔ ∀ c ∈ s.getLast?, isalpha c = false) := by
  refine ⟨⟨?_, ?_⟩, parse_documented_iff s hascii hlen hfree⟩
  · rintro ⟨r, hr, hsome, hexact⟩ c hc
    rcases parse_ok hlen hr with ⟨_, rfl⟩ | ⟨_, tab, rfl, hfreed, hne⟩
    · apply Bool.eq_false_of_not_eq_true
      intro hletter
      cases hsome.mpr ⟨c, hc, hletter⟩
    · obtain ⟨tab', hreads, _⟩ := hexact tab rfl
      exact absurd hreads (not_readsAs hfreed hne tab')
  · intro hall
    refine ⟨none, parse_none hlen (tokens_of_letterless hascii hall), ⟨(fun h => nomatch h), ?_⟩,
      (fun tab h => nomatch h)⟩
    rintro ⟨c, hc, hletter⟩
    rw [hall c hc] at hletter
    cases hletter

/-- The texts "1." and "To be." -/
theorem parse_exact_small :
    (∃ r, parseIntoWordPositionsTable [49, 46] = .ok r ∧ (r.isSome = true ↔ ∃ c ∈ [49, 46], isalpha c = true) ∧
      ∀ tab ∈ r, ∃ tab', ReadsAs tab tab' ∧ ExactTable [49, 46] tab') ∧
    ∃ r, FileParser.parseIntoWordPositionsTable [84, 111, 32, 98, 101, 46] = .ok r ∧
      (r.isSome = true ↔ ∃ c ∈ [84, 111, 32, 98, 101, 46], isalpha c = true) ∧
      ∀ tab ∈ r, ExactTable [84, 111, 32, 98, 101, 46] tab := by
  have hdigits : Ascii [49, 46] := by simp [Ascii, ASCII_UPPER_BOUND]
  have hdigit : ∀ c ∈ ([49, 46] : Bytes).getLast?, isalpha c = false := by simp [isalpha]
  have hnone : ∀ u ∈ tokens [49, 46], ∀ v ∈ tokens [49, 46],
      hashString u.word = hashString v.word → u.word = v.word := by
    decide +kernel
  have hascii : Ascii [84, 111, 32, 98, 101, 46] := by simp [Ascii, ASCII_UPPER_BOUND]
  have hlast : ∀ c ∈ ([84, 111, 32, 98, 101, 46] : Bytes).getLast?, isalpha c = false := by simp [isalpha]
  have hapart : ∀ u ∈ tokens [84, 111, 32, 98, 101, 46], ∀ v ∈ tokens [84, 111, 32, 98, 101, 46],
      hashString u.word = hashString v.word → u.word = v.word := by decide +kernel
  constructor
  · exact (parse_exact_iff _ hdigits (by decide) ((collisionFree_iff hdigits hdigit).mpr hnone)).1.mpr
      (by simp [isalpha])
  · exact (parse_exact_iff _ hascii (by decide) ((collisionFree_iff hascii hlast).mpr hapart)).2.mpr hlast

/-- The word of the text "a" is not recorded, and that of "a." is in a node
that is gone. -/
theorem parse_not_exact :
    (Ascii [97] ∧ FileParser.CollisionFree [97] ∧
      ¬∃ r, parseIntoWordPositionsTable [97] = .ok r ∧ (r.isSome = true ↔ ∃ c ∈ [97], isalpha c = true) ∧
        ∀ tab ∈ r, ∃ tab', ReadsAs tab tab' ∧ ExactTable [97] tab') ∧
    ∃ tab, parseIntoWordPositionsTable [97, 46] = .ok (some tab) ∧ tab.entries = .error .badAccess := by
  refine ⟨⟨by simp [Ascii, ASCII_UPPER_BOUND], ?_, ?_⟩, ?_⟩
  · intro p q p' q' hrun hrun' _
    have hend := hrun.end_le
    have hend' := hrun'.end_le
    have hlt := hrun.nonempty
    have hlt' := hrun'.nonempty
    rw [List.length_singleton] at hend hend'
    rw [show p = p' by omega, show q = q' by omega]
  · rintro ⟨r, hr, hsome, _⟩
    have hthere := hsome.mpr ⟨97, List.mem_singleton.mpr rfl, by decide⟩
    rw [parse_none (by decide) (by decide)] at hr
    obtain rfl := Except.ok.inj hr
    cases hthere
  · obtain ⟨r, hr⟩ := Run.eq_ok (show (parseIntoWordPositionsTable [97, 46]).fault = none by decide +kernel)
    rcases parse_ok (by decide) hr with ⟨hnil, _⟩ | ⟨_, tab, rfl, hfreed, hne⟩
    · exact absurd hnil (by decide)
    · exact ⟨tab, hr, entries_freed hfreed hne⟩

end DanglingWordTable

structure DanglingCrawl where
  docTable : DanglingDocTable
  index : DanglingMemIndex

namespace DanglingCrawl

open Dir
open FileParser (tokens)
open CrawlFileTree (Entry alphasort readFileToString readFileToString_eq visited visited_perm MAX_NUM_DIR_ENTRIES)
open DanglingWordTable (parseIntoWordPositionsTable parse_none parse_ok)

/-- HTIterator_Remove reads each pair of the word table, with HTIterator_Get,
before it takes it out. -/
def handleFile (s : DanglingCrawl) (file : File) : Run DanglingCrawl := do
  let (fileBuf, fileLen) ← readFileToString file.contents
  verify333 (0 < fileLen)
  match ← parseIntoWordPositionsTable fileBuf with
  | none => return s
  | some tab =>
      let (docTable, docId) ← s.docTable.add file.path
      let index ← tab.walk
        (fun (index : DanglingMemIndex) kv => index.addPostingList kv.value.word docId kv.value.positions) s.index
      return ⟨docTable, index⟩

variable (qsort : Sorter fun e1 e2 => alphasort e1 e2 < 0)

/-- HandleDir hands the files to HandleFile in this order, whatever
HandleFile does with them. -/
def crawlFileTree (rootDir : Bytes) (root : Option Target) : Run (Option DanglingCrawl) :=
  match root with
  | none => .ok none
  | some (.file _) => .ok none
  | some (.dir d) => do
      let docTable ← DanglingDocTable.allocate
      let index ← DanglingMemIndex.allocate
      let s ← (visited qsort (d.depth + 1) rootDir d).foldlM handleFile ⟨docTable, index⟩
      return some s

def TableHolds (f : File) (word : Bytes) (ps : List UInt64) : Prop :=
  ∃ tab kv, parseIntoWordPositionsTable f.contents = .ok (some tab) ∧ tab.find (hashString word) = .ok (some kv) ∧
    kv.value.word = word ∧ kv.value.positions.elements = .ok ps

def IndexHolds (s : DanglingCrawl) (word path : Bytes) (ps : List UInt64) : Prop :=
  ∃ docId kv p, s.docTable.getDocName docId = .ok (some path) ∧ s.index.find (hashString word) = .ok (some kv) ∧
    kv.value.word = word ∧ kv.value.postings.find docId = .ok (some p) ∧ p.value.elements = .ok ps

/-- What a crawl is to have done, as its client reads it. -/
structure Covers (s : DanglingCrawl) (files : List File) : Prop where
  docs : ∀ path, (∃ docId, s.docTable.getDocName docId = .ok (some path)) ↔
    ∃ f ∈ files, f.path = path ∧ ∃ tab, parseIntoWordPositionsTable f.contents = .ok (some tab)
  ids : ∀ path docId, s.docTable.getDocName docId = .ok (some path) → s.docTable.getDocID path = .ok docId
  registered : ∀ key docId kv p, s.index.find key = .ok (some kv) → kv.value.postings.find docId = .ok (some p) →
    ∃ path, s.docTable.getDocName docId = .ok (some path)
  postings : ∀ word path ps, IndexHolds s word path ps ↔ ∃ f ∈ files, f.path = path ∧ TableHolds f word ps

/-- No document and no word. -/
structure Empty (s : DanglingCrawl) : Prop where
  docs : s.docTable.Freed
  numDocs : s.docTable.idToName.numElements = 0
  index : s.index.Freed
  numWords : s.index.numElements = 0

section

variable {s s' : DanglingCrawl} {f : File} {files : List File}

theorem handleFile_ok (hlen : f.contents.length < 2 ^ 31) (h : handleFile s f = .ok s') :
    f.contents ≠ [] ∧ tokens f.contents = [] ∧ s' = s := by
  simp only [handleFile, readFileToString_eq hlen, Run.ok_bind] at h
  obtain ⟨_, hver, h⟩ := Run.bind_eq_ok.mp h
  have hne : f.contents ≠ [] := by
    rintro he
    simp [he] at hver
  refine ⟨hne, ?_⟩
  obtain ⟨r, hparse, h⟩ := Run.bind_eq_ok.mp h
  rcases parse_ok hlen hparse with ⟨hnil, rfl⟩ | ⟨_, tab, rfl, hfreed, hfull⟩
  · exact ⟨hnil, (Except.ok.inj h).symm⟩
  · obtain ⟨added, _, h⟩ := Run.bind_eq_ok.mp h
    simp only [hfreed.walk, if_neg hfull, Run.error_bind] at h
    cases h

theorem handleFile_skip (s : DanglingCrawl) (hlen : f.contents.length < 2 ^ 31) (hne : f.contents ≠ [])
    (hnil : tokens f.contents = []) : handleFile s f = .ok s := by
  have hpos : 0 < f.contents.length := List.length_pos_of_ne_nil hne
  have hcond : decide (0 < (f.contents.length : Int)) = true := decide_eq_true (by omega)
  simp only [handleFile, readFileToString_eq hlen, Run.ok_bind, hcond, verify333_true, parse_none hlen hnil,
    Run.pure_eq_ok]

theorem handleFiles_ok (hlen : ∀ f ∈ files, f.contents.length < 2 ^ 31)
    (h : files.foldlM handleFile s = .ok s') : ∀ f ∈ files, f.contents ≠ [] ∧ tokens f.contents = [] := by
  induction files generalizing s with
  | nil => simp
  | cons f files ih =>
      rw [List.foldlM_cons] at h
      obtain ⟨s₁, hone, hrest⟩ := Run.bind_eq_ok.mp h
      obtain ⟨hne, hnil, rfl⟩ := handleFile_ok (hlen f (by simp)) hone
      exact List.forall_mem_cons.mpr ⟨⟨hne, hnil⟩, ih (fun g hg => hlen g (by simp [hg])) hrest⟩

theorem handleFiles_skip (s : DanglingCrawl) (hlen : ∀ f ∈ files, f.contents.length < 2 ^ 31)
    (hskip : ∀ f ∈ files, f.contents ≠ [] ∧ tokens f.contents = []) : files.foldlM handleFile s = .ok s := by
  induction files with
  | nil => rfl
  | cons f files ih =>
      obtain ⟨hne, hnil⟩ := hskip f (by simp)
      rw [List.foldlM_cons, handleFile_skip s (hlen f (by simp)) hne hnil, Run.ok_bind]
      exact ih (fun g hg => hlen g (by simp [hg])) fun g hg => hskip g (by simp [hg])

theorem Empty.covers (h : s.Empty) (hlen : ∀ f ∈ files, f.contents.length < 2 ^ 31)
    (hskip : ∀ f ∈ files, f.contents ≠ [] ∧ tokens f.contents = []) : s.Covers files := by
  have hname (docId : UInt64) (path : Bytes) : s.docTable.getDocName docId ≠ .ok (some path) := by
    intro hget
    obtain ⟨_, _, hfound⟩ := Run.bind_eq_ok.mp hget
    simp [h.docs.idToName.find, h.docs.idToName.chain_nil h.numDocs] at hfound
  have htable (f : File) (hf : f ∈ files) (tab : DanglingWordTable) :
      parseIntoWordPositionsTable f.contents ≠ .ok (some tab) := by
    intro hparse
    rw [parse_none (hlen f hf) (hskip f hf).2] at hparse
    cases hparse
  constructor
  · intro path
    constructor
    · rintro ⟨docId, hget⟩
      exact absurd hget (hname docId path)
    · rintro ⟨f, hf, _, tab, hparse⟩
      exact absurd hparse (htable f hf tab)
  · intro path docId hget
    exact absurd hget (hname docId path)
  · intro key docId kv p hfind
    simp [h.index.find, h.index.chain_nil h.numWords] at hfind
  · intro word path ps
    constructor
    · rintro ⟨docId, kv, p, hget, _⟩
      exact absurd hget (hname docId path)
    · rintro ⟨f, hf, _, tab, kv, hparse, _⟩
      exact absurd hparse (htable f hf tab)

end

theorem start_empty : ∃ docTable index, DanglingDocTable.allocate = .ok docTable ∧
    DanglingMemIndex.allocate = .ok index ∧ Empty ⟨docTable, index⟩ := by
  obtain ⟨docTable, hdocs, hfreed, hzero, _⟩ := DanglingDocTable.allocate_freed
  obtain ⟨index, hindex, hbuilt⟩ := DanglingMemIndex.allocate_built
  exact ⟨docTable, index, hdocs, hindex, hfreed, hzero, hbuilt.freed, hbuilt.count⟩

/-- On the lists of LinkedList.c a tree is covered only when nothing in it is
indexed: the first word of a file that has one is read from a freed node.
Without the freed nodes it is covered unless a file is empty. -/
theorem crawl_covers_iff (rootDir : Bytes) (d : Dir) (hd : d.Valid MAX_NUM_DIR_ENTRIES)
    (hlen : ∀ f ∈ d.files rootDir, f.contents.length < 2 ^ 31)
    (hfree : CrawlFileTree.CollisionFree (d.files rootDir)) :
    ((∃ s, crawlFileTree qsort rootDir (some (.dir d)) = .ok (some s) ∧ s.Covers (d.files rootDir)) ↔
      ∀ f ∈ d.files rootDir, f.contents ≠ [] ∧ tokens f.contents = []) ∧
    ((∃ s, CrawlFileTree.crawlFileTree qsort rootDir (some (.dir d)) = .ok (some s) ∧
        CrawlFileTree.Covers s (d.files rootDir)) ↔
      (∀ f ∈ d.files rootDir, f.contents ≠ []) ∧ CrawlFileTree.Capacity (d.files rootDir)) := by
  refine ⟨?_, CrawlFileTree.covers_documented_iff qsort rootDir d hd hlen hfree⟩
  obtain ⟨docTable, index, hdocs, hindex, hempty⟩ := start_empty
  have hperm := visited_perm qsort (d.depth + 1) rootDir d (Nat.lt_succ_self _) hd
  have hlen' : ∀ f ∈ visited qsort (d.depth + 1) rootDir d, f.contents.length < 2 ^ 31 :=
    fun f hf => hlen f (hperm.mem_iff.mp hf)
  have hcrawl : crawlFileTree qsort rootDir (some (.dir d)) = do
      let s ← (visited qsort (d.depth + 1) rootDir d).foldlM handleFile ⟨docTable, index⟩
      return some s := by
    simp only [crawlFileTree, hdocs, hindex, Run.ok_bind]
  rw [hcrawl]
  constructor
  · rintro ⟨s, h, _⟩ f hf
    obtain ⟨s', hfiles, _⟩ := Run.bind_eq_ok.mp h
    exact handleFiles_ok hlen' hfiles f (hperm.mem_iff.mpr hf)
  · intro hskip
    have hall := handleFiles_skip ⟨docTable, index⟩ hlen' fun f hf => hskip f (hperm.mem_iff.mp hf)
    exact ⟨_, by rw [hall, Run.ok_bind, Run.pure_eq_ok], hempty.covers hlen hskip⟩

/-- A directory with a file that is not ASCII, and one with a text as well. -/
theorem crawl_covers_small :
    (∃ s, crawlFileTree (mergeSorter _) (ascii ['.']) (some (.dir (.file (ascii ['e']) [0xff] .nil))) = .ok (some s) ∧
      s.Covers (Dir.files (ascii ['.']) (.file (ascii ['e']) [0xff] .nil))) ∧
    ∃ s, CrawlFileTree.crawlFileTree (mergeSorter _) (ascii ['.']) (some (.dir CrawlFileTree.smallTree)) =
        .ok (some s) ∧
      CrawlFileTree.Covers s (CrawlFileTree.smallTree.files (ascii ['.'])) := by
  constructor
  · refine (crawl_covers_iff (mergeSorter _) (ascii ['.']) (.file (ascii ['e']) [0xff] .nil) ?_ ?_ ?_).1.mpr ?_
    · decide
    · decide
    · exact ⟨by decide +kernel, by decide +kernel⟩
    · decide
  · refine (crawl_covers_iff (mergeSorter _) (ascii ['.']) CrawlFileTree.smallTree ?_ ?_ ?_).2.mpr ⟨?_, ?_, ?_⟩
    · decide
    · decide
    · exact ⟨by decide +kernel, by decide +kernel⟩
    · decide
    · decide
    · decide

def emptyFileTree : Dir := .file (ascii ['f']) [] .nil

def wordTree : Dir := .file (ascii ['f']) (ascii ['a', '.']) .nil

/-- An empty file ends the program, and so does a text with one word: its
position list is in a node that is gone. -/
theorem crawl_stops :
    (emptyFileTree.Valid MAX_NUM_DIR_ENTRIES ∧
      (∀ f ∈ emptyFileTree.files (ascii ['.']), f.contents.length < 2 ^ 31) ∧
      CrawlFileTree.CollisionFree (emptyFileTree.files (ascii ['.'])) ∧
      crawlFileTree (mergeSorter _) (ascii ['.']) (some (.dir emptyFileTree)) = .error .verify333) ∧
    wordTree.Valid MAX_NUM_DIR_ENTRIES ∧
      (∀ f ∈ wordTree.files (ascii ['.']), f.contents.length < 2 ^ 31) ∧
      CrawlFileTree.CollisionFree (wordTree.files (ascii ['.'])) ∧
      crawlFileTree (mergeSorter _) (ascii ['.']) (some (.dir wordTree)) = .error .badAccess := by
  refine ⟨⟨by decide, by decide, ⟨by decide +kernel, by decide⟩, Run.eq_error ?_⟩,
    by decide, by decide, ⟨by decide +kernel, by decide +kernel⟩, Run.eq_error ?_⟩
  · decide +kernel
  · decide +kernel

/-- Beyond the two limits the order of the entries decides what is kept, and
on the lists of LinkedList.c one word is enough for a freed node to be read. -/
theorem crawl_order_dependent :
    (Reordered (CrawlFileTree.textFirst 512) (CrawlFileTree.textLast 512) ∧
      (CrawlFileTree.textFirst 512).Valid 513 ∧
      ¬CrawlFileTree.OrderIndependent (mergeSorter _) (ascii ['.']) (CrawlFileTree.textFirst 512)
        (CrawlFileTree.textLast 512)) ∧
    (Reordered (CrawlFileTree.longPaths 120 121) (CrawlFileTree.longPaths 121 120) ∧
      (CrawlFileTree.longPaths 120 121).Valid 512 ∧
      ¬CrawlFileTree.OrderIndependent (mergeSorter _) CrawlFileTree.longRoot (CrawlFileTree.longPaths 120 121)
        (CrawlFileTree.longPaths 121 120)) ∧
    crawlFileTree (mergeSorter _) (ascii ['.']) (some (.dir wordTree)) = .error .badAccess :=
  ⟨CrawlFileTree.order_dependent.1, CrawlFileTree.order_dependent.2, Run.eq_error (by decide +kernel)⟩

end DanglingCrawl

end SearchEngine
