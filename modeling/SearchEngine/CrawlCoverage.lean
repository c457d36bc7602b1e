import SearchEngine.CrawlFileTree

namespace SearchEngine.CrawlFileTree

open Dir FileParser HashTable

def tableOf (contents : Bytes) : Option WordTable := (parseIntoWordPositionsTable contents).toOption.join

/-- The files that get a table, in order. The position of a file in this list
decides its document ID. -/
def indexed (files : List File) : List (Bytes × WordTable) :=
  files.filterMap fun f => (tableOf f.contents).map fun tab => (f.path, tab)

def postingsFrom (docs : List (Bytes × WordTable)) : List Posting :=
  docs.zipIdx.flatMap fun d => postingsOf (DocTable.idAt d.2) d.1.2

def wordsOf (files : List File) : List Bytes := files.flatMap fun f => (tokens f.contents).map Token.word

/-- What a crawl has built after some files. -/
structure Crawled (s : Crawl) (files : List File) : Prop where
  docs : DocTable.Registers s.docTable ((indexed files).map Prod.fst)
  index : MemIndex.Indexes s.index (postingsFrom (indexed files))

theorem tableOf_eq_some {contents : Bytes} {tab : WordTable} :
    tableOf contents = some tab ↔ parseIntoWordPositionsTable contents = .ok (some tab) := by
  rw [tableOf]
  cases parseIntoWordPositionsTable contents with
  | ok r => simp [Except.toOption]
  | error e => simp [Except.toOption]

theorem indexed_concat (files : List File) (f : File) :
    indexed (files ++ [f]) = indexed files ++ ((tableOf f.contents).map fun tab => (f.path, tab)).toList := by
  cases h : tableOf f.contents <;> simp [indexed, h]

theorem mem_indexed {files : List File} {path : Bytes} {tab : WordTable} :
    (path, tab) ∈ indexed files ↔ ∃ f ∈ files, f.path = path ∧ tableOf f.contents = some tab := by
  simp only [indexed, List.mem_filterMap, Option.map_eq_some_iff, Prod.mk.injEq]
  constructor
  · rintro ⟨f, hf, tab', htab, rfl, rfl⟩
    exact ⟨f, hf, rfl, htab⟩
  · rintro ⟨f, hf, rfl, htab⟩
    exact ⟨f, hf, tab, htab, rfl, rfl⟩

theorem postingsFrom_concat (docs : List (Bytes × WordTable)) (d : Bytes × WordTable) :
    postingsFrom (docs ++ [d]) = postingsFrom docs ++ postingsOf (DocTable.idAt docs.length) d.2 := by
  simp [postingsFrom, List.zipIdx_append]

theorem mem_postingsFrom {docs : List (Bytes × WordTable)} {a : Posting} :
    a ∈ postingsFrom docs ↔ ∃ i path tab, docs[i]? = some (path, tab) ∧ a ∈ postingsOf (DocTable.idAt i) tab := by
  simp only [postingsFrom, List.mem_flatMap, Prod.exists, List.mk_mem_zipIdx_iff_getElem?]
  constructor
  · rintro ⟨path, tab, i, h⟩
    exact ⟨i, path, tab, h⟩
  · rintro ⟨i, path, tab, h⟩
    exact ⟨path, tab, i, h⟩

theorem mem_postingsOf {docId : DocID} {tab : WordTable} {a : Posting} :
    a ∈ postingsOf docId tab ↔
      a.docId = docId ∧ ∃ key, tab.lookup key = some ⟨a.word, a.postings⟩ := by
  simp only [postingsOf, List.mem_map]
  constructor
  · rintro ⟨kv, hkv, rfl⟩
    exact ⟨rfl, kv.key, mem_pairs.mp hkv⟩
  · rintro ⟨rfl, key, hl⟩
    exact ⟨⟨key, ⟨a.word, a.postings⟩⟩, mem_pairs.mpr hl, rfl⟩

theorem tableOf_parsed {contents : Bytes} {tab : WordTable} (hlen : contents.length < 2 ^ 31)
    (h : tableOf contents = some tab) : Parsed tab (tokens contents) := by
  rcases parse_ok hlen (tableOf_eq_some.mp h) with ⟨hnone, _⟩ | ⟨tab', hsome, _, hparsed⟩
  · cases hnone
  · obtain rfl := Option.some.inj hsome
    exact hparsed

section

variable {s s' : Crawl} {files : List File} {f : File}

theorem names_indexed {path : Bytes} (h : path ∈ (indexed files).map Prod.fst) : ∃ f ∈ files, f.path = path := by
  obtain ⟨⟨path', tab⟩, hmem, rfl⟩ := List.mem_map.mp h
  obtain ⟨f, hf, hpath, _⟩ := mem_indexed.mp hmem
  exact ⟨f, hf, hpath⟩

theorem handleFile_crawled (hs : Crawled s files) (hlen : f.contents.length < 2 ^ 31)
    (hnew : ∀ g ∈ files, hashString g.path ≠ hashString f.path) (h : handleFile s f = .ok s') :
    Crawled s' (files ++ [f]) ∧ f.contents ≠ [] ∧ ∃ r, parseIntoWordPositionsTable f.contents = .ok r := by
  rw [handleFile_eq s f hlen] at h
  by_cases hempty : f.contents = []
  · simp [hempty] at h
  rw [if_neg hempty] at h
  obtain ⟨r, hparse, h⟩ := Run.bind_eq_ok.mp h
  refine ⟨?_, hempty, r, hparse⟩
  cases r with
  | none =>
      obtain rfl : s = s' := by simpa using h
      have hnone : tableOf f.contents = none := by
        rw [tableOf, hparse]
        rfl
      have hsame : indexed (files ++ [f]) = indexed files := by simp [indexed_concat, hnone]
      exact ⟨hsame ▸ hs.docs, hsame ▸ hs.index⟩
  | some tab =>
      obtain ⟨⟨docTable, docId⟩, hadd, h⟩ := Run.bind_eq_ok.mp h
      obtain ⟨index, hall, h⟩ := Run.bind_eq_ok.mp h
      obtain rfl : (⟨docTable, index⟩ : Crawl) = s' := by simpa using h
      have hsome : tableOf f.contents = some tab := tableOf_eq_some.mpr hparse
      have hmore : indexed (files ++ [f]) = indexed files ++ [(f.path, tab)] := by simp [indexed_concat, hsome]
      rcases DocTable.add_ok hs.docs hadd with ⟨_, hfound⟩ | ⟨_, rfl, hdocs⟩
      · have hnone : s.docTable.nameToId.lookup (hashString f.path) = none := by
          apply hs.docs.lookup_hash.mpr
          intro path hpath
          obtain ⟨g, hg, rfl⟩ := names_indexed hpath
          exact hnew g hg
        rw [hnone] at hfound
        cases hfound
      · have hindex := MemIndex.addAll_indexes hs.index hall
        rw [List.length_map] at hindex
        constructor
        · rw [hmore, List.map_append]
          exact hdocs
        · rw [hmore, postingsFrom_concat]
          exact hindex

theorem word_mem {a : Posting} (hlen : ∀ f ∈ files, f.contents.length < 2 ^ 31)
    (ha : a ∈ postingsFrom (indexed files)) : a.word ∈ wordsOf files := by
  obtain ⟨i, path, tab, hi, ha⟩ := mem_postingsFrom.mp ha
  obtain ⟨_, key, hl⟩ := mem_postingsOf.mp ha
  obtain ⟨f, hf, _, htab⟩ := mem_indexed.mp (List.mem_of_getElem? hi)
  have hword := ((tableOf_parsed (hlen f hf) htab).key key _ hl).2
  exact List.mem_flatMap.mpr ⟨f, hf, hword⟩

theorem mem_word {w : Bytes} (hlen : ∀ f ∈ files, f.contents.length < 2 ^ 31)
    (hparse : ∀ f ∈ files, ∃ r, parseIntoWordPositionsTable f.contents = .ok r) (hw : w ∈ wordsOf files) :
    ∃ a ∈ postingsFrom (indexed files), a.word = w := by
  obtain ⟨f, hf, hw⟩ := List.mem_flatMap.mp hw
  obtain ⟨t, ht, rfl⟩ := List.mem_map.mp hw
  obtain ⟨r, hr⟩ := hparse f hf
  rcases parse_ok (hlen f hf) hr with ⟨_, hnil⟩ | ⟨tab, rfl, _, hparsed⟩
  · rw [hnil] at ht
    cases ht
  · obtain ⟨wp, hl, hword⟩ := hparsed.word t ht
    obtain ⟨i, hi⟩ := List.getElem?_of_mem (mem_indexed.mpr ⟨f, hf, rfl, tableOf_eq_some.mpr hr⟩)
    refine ⟨⟨wp.word, DocTable.idAt i, wp.positions⟩, ?_, hword⟩
    exact mem_postingsFrom.mpr ⟨i, _, _, hi, mem_postingsOf.mpr ⟨rfl, _, hl⟩⟩

theorem words_postings (hlen : ∀ f ∈ files, f.contents.length < 2 ^ 31)
    (hparse : ∀ f ∈ files, ∃ r, parseIntoWordPositionsTable f.contents = .ok r) :
    ((postingsFrom (indexed files)).map Posting.word).toFinset = (wordsOf files).toFinset := by
  ext w
  simp only [List.mem_toFinset, List.mem_map]
  constructor
  · rintro ⟨a, ha, rfl⟩
    exact word_mem hlen ha
  · exact mem_word hlen hparse

theorem length_indexed (hlen : ∀ f ∈ files, f.contents.length < 2 ^ 31)
    (hparse : ∀ f ∈ files, ∃ r, parseIntoWordPositionsTable f.contents = .ok r) :
    (indexed files).length = files.countP fun f => !(tokens f.contents).isEmpty := by
  induction files with
  | nil => rfl
  | cons f files ih =>
      have hrest := ih (fun g hg => hlen g (by simp [hg])) fun g hg => hparse g (by simp [hg])
      obtain ⟨r, hr⟩ := hparse f (by simp)
      rcases parse_ok (hlen f (by simp)) hr with ⟨rfl, hnil⟩ | ⟨tab, rfl, hne, _⟩
      · have hnone : tableOf f.contents = none := by
          rw [tableOf, hr]
          rfl
        rw [List.countP_cons_of_neg (by simp [hnil]), ← hrest]
        simp [indexed, hnone]
      · have hsome := tableOf_eq_some.mpr hr
        rw [List.countP_cons_of_pos (by simpa using hne), ← hrest]
        simp [indexed, hsome]

end

/-- The number of files with words and the number of words for which the hash
tables of the crawl stay within int. -/
structure Capacity (files : List File) : Prop where
  docs : (files.countP fun f => !(tokens f.contents).isEmpty) ≤ 258280326
  words : (wordsOf files).toFinset.card ≤ 2066242608

theorem fits_docs {n : Nat} : 3 * bucketsFor 2 n ≤ INT_MAX ↔ n ≤ 258280326 :=
  fits_iff (by decide : 0 < 2) (by decide : 3 * (2 * 9 ^ 8) ≤ INT_MAX) (by decide)

theorem fits_words {n : Nat} : 3 * bucketsFor 16 n ≤ INT_MAX ↔ n ≤ 2066242608 :=
  fits_iff (by decide : 0 < 16) (by decide : 3 * (16 * 9 ^ 8) ≤ INT_MAX) (by decide)

theorem Capacity.of_append {files more : List File} (h : Capacity (files ++ more)) : Capacity files := by
  constructor
  · have hle := h.docs
    rw [List.countP_append] at hle
    omega
  · refine Nat.le_trans (Finset.card_le_card ?_) h.words
    intro w hw
    simp only [wordsOf, List.mem_toFinset, List.flatMap_append, List.mem_append] at hw ⊢
    exact .inl hw

/-- No two of the paths, and no two of the words, have the same hash. -/
structure CollisionFree (files : List File) : Prop where
  paths : ∀ f ∈ files, ∀ g ∈ files, hashString f.path = hashString g.path → f.path = g.path
  words : ∀ u ∈ wordsOf files, ∀ v ∈ wordsOf files, hashString u = hashString v → u = v

theorem nodup_postingsOf (docId : DocID) {tab : WordTable} {ts : List Token} (h : Parsed tab ts) :
    ((postingsOf docId tab).map Posting.word).Nodup := by
  have hkeys := tab.nodup_keys
  have hsame : tab.pairs.map HTKeyValue.key = ((postingsOf docId tab).map Posting.word).map hashString := by
    simp only [postingsOf, List.map_map]
    apply List.map_congr_left
    intro kv hkv
    rw [Function.comp_apply, Function.comp_apply, (h.key _ _ (mem_pairs.mp hkv)).1]
  rw [hsame] at hkeys
  exact hkeys.of_map _

theorem countP_flatMap_le {α β : Type} (p : β → Bool) (g : α → List β) (l : List α)
    (h : ∀ x ∈ l, (g x).countP p ≤ 1) : (l.flatMap g).countP p ≤ l.length := by
  induction l with
  | nil => simp
  | cons x l ih =>
      have hx := h x (by simp)
      have hl := ih fun y hy => h y (by simp [hy])
      rw [List.flatMap_cons, List.countP_append, List.length_cons]
      omega

theorem countP_postingsFrom {files : List File} (hlen : ∀ f ∈ files, f.contents.length < 2 ^ 31) (w : Bytes) :
    (postingsFrom (indexed files)).countP (fun a => a.word = w) ≤ (indexed files).length := by
  have hle := countP_flatMap_le (fun a : Posting => decide (a.word = w))
    (fun d : (Bytes × WordTable) × Nat => postingsOf (DocTable.idAt d.2) d.1.2) (indexed files).zipIdx (by
      rintro ⟨⟨path, tab⟩, i⟩ hd
      have hmem := List.mem_of_getElem? (List.mk_mem_zipIdx_iff_getElem?.mp hd)
      obtain ⟨f, hf, _, htab⟩ := mem_indexed.mp hmem
      have hnodup := nodup_postingsOf (DocTable.idAt i) (tableOf_parsed (hlen f hf) htab)
      have hcount := List.nodup_iff_count_le_one.mp hnodup w
      rw [List.count, List.countP_map] at hcount
      exact Nat.le_trans (Nat.le_of_eq (List.countP_congr fun a _ => by simp)) hcount)
  rwa [List.length_zipIdx] at hle

/-- The postings of a new document are new. -/
theorem nodup_added {s : Crawl} {files : List File} (hs : Crawled s files) {tab : WordTable} {ts : List Token}
    (hparsed : Parsed tab ts) (hdocs : (indexed files).length + 1 ≤ 258280326) :
    ((postingsFrom (indexed files) ++ postingsOf (DocTable.idAt (indexed files).length) tab).map
      fun a => (a.word, a.docId)).Nodup := by
  rw [List.map_append, List.nodup_append]
  refine ⟨hs.index.distinct, ?_, ?_⟩
  · have hnodup := nodup_postingsOf (DocTable.idAt (indexed files).length) hparsed
    have hfst : (postingsOf (DocTable.idAt (indexed files).length) tab).map Posting.word =
        ((postingsOf (DocTable.idAt (indexed files).length) tab).map fun a => (a.word, a.docId)).map Prod.fst := by
      simp
    rw [hfst] at hnodup
    exact hnodup.of_map _
  · intro p hp q hq he
    obtain ⟨a, ha, rfl⟩ := List.mem_map.mp hp
    obtain ⟨b, hb, rfl⟩ := List.mem_map.mp hq
    obtain ⟨i, path, tab', hi, ha⟩ := mem_postingsFrom.mp ha
    have hlt : i < (indexed files).length := (List.getElem?_eq_some_iff.mp hi).1
    rw [Prod.mk.injEq, (mem_postingsOf.mp ha).1, (mem_postingsOf.mp hb).1] at he
    have hmax : (258280326 : Nat) ≤ INT_MAX := by decide
    have hsame := DocTable.idAt_inj (by omega) (by omega) he.2
    omega

theorem handleFile_new {s : Crawl} {files : List File} {f : File} (hs : Crawled s files)
    (hlen : ∀ g ∈ files ++ [f], g.contents.length < 2 ^ 31)
    (hparse : ∀ g ∈ files, ∃ r, parseIntoWordPositionsTable g.contents = .ok r)
    (hfree : CollisionFree (files ++ [f])) (hnew : ∀ g ∈ files, g.path ≠ f.path) (hne : f.contents ≠ [])
    (hcap : Capacity (files ++ [f])) : ∃ s', handleFile s f = .ok s' := by
  have hlenf := hlen f (by simp)
  have hwords (t : Token) (ht : t ∈ tokens f.contents) : t.word ∈ wordsOf (files ++ [f]) :=
    List.mem_flatMap.mpr ⟨f, by simp, List.mem_map_of_mem ht⟩
  obtain ⟨r, hr⟩ := parse_new hlenf fun u hu v hv => hfree.words _ (hwords u hu) _ (hwords v hv)
  rw [handleFile_eq s f hlenf, if_neg hne, hr, Run.ok_bind]
  cases r with
  | none => exact ⟨s, rfl⟩
  | some tab =>
      have hsome := tableOf_eq_some.mpr hr
      have hmore : indexed (files ++ [f]) = indexed files ++ [(f.path, tab)] := by simp [indexed_concat, hsome]
      have hall : ∀ g ∈ files ++ [f], ∃ r, parseIntoWordPositionsTable g.contents = .ok r := by
        intro g hg
        rcases List.mem_append.mp hg with hg | hg
        · exact hparse g hg
        · rw [List.mem_singleton.mp hg]
          exact ⟨_, hr⟩
      have hdocs : (indexed files).length + 1 ≤ 258280326 := by
        have hle := hcap.docs
        rw [← length_indexed hlen hall, hmore, List.length_append] at hle
        exact hle
      have hpath : ∀ path ∈ (indexed files).map Prod.fst, hashString path ≠ hashString f.path := by
        intro path hpath he
        obtain ⟨g, hg, rfl⟩ := names_indexed hpath
        exact hnew g hg (hfree.paths g (by simp [hg]) f (by simp) he)
      obtain ⟨docTable, hadd⟩ := DocTable.add_new hs.docs hpath (by
        rw [List.length_map]
        exact fits_docs.mpr hdocs)
      generalize hid : DocTable.idAt ((indexed files).map Prod.fst).length = docId at hadd
      rw [List.length_map] at hid
      have hsplit : postingsFrom (indexed (files ++ [f])) = postingsFrom (indexed files) ++ postingsOf docId tab := by
        rw [hmore, postingsFrom_concat, ← hid]
      obtain ⟨index, hindex⟩ : ∃ index, s.index.addAll (postingsOf docId tab) = .ok index := by
        apply MemIndex.addAll_new hs.index
        · rw [← hsplit]
          intro a ha b hb
          exact hfree.words _ (word_mem hlen ha) _ (word_mem hlen hb)
        · rw [← hid]
          exact nodup_added hs (tableOf_parsed hlenf hsome) hdocs
        · rw [← hsplit, words_postings hlen hall]
          exact fits_words.mpr hcap.words
        · intro w
          have hcount := countP_postingsFrom hlen w
          rw [hmore, List.length_append, ← hmore] at hcount
          rw [← hsplit]
          exact fits_words.mpr (Nat.le_trans hcount (Nat.le_trans hdocs (by decide)))
      exact ⟨⟨docTable, index⟩, by simp only [hadd, hindex, Run.ok_bind]; rfl⟩

theorem CollisionFree.of_append {files more : List File} (h : CollisionFree (files ++ more)) : CollisionFree files := by
  constructor
  · intro f hf g hg
    exact h.paths f (by simp [hf]) g (by simp [hg])
  · intro u hu v hv
    have hmem (w : Bytes) (hw : w ∈ wordsOf files) : w ∈ wordsOf (files ++ more) := by
      simp only [wordsOf, List.flatMap_append, List.mem_append] at hw ⊢
      exact .inl hw
    exact h.words u (hmem u hu) v (hmem v hv)

theorem hash_new {files more : List File} {f : File} (hfree : CollisionFree (files ++ f :: more))
    (hpaths : ((files ++ f :: more).map File.path).Nodup) : ∀ g ∈ files, hashString g.path ≠ hashString f.path := by
  intro g hg he
  rw [List.map_append, List.nodup_append] at hpaths
  exact hpaths.2.2 g.path (List.mem_map_of_mem hg) f.path (by simp)
    (hfree.paths g (by simp [hg]) f (by simp) he)

theorem handleFiles_crawled {s s' : Crawl} {files more : List File} (hs : Crawled s files)
    (hlen : ∀ f ∈ files ++ more, f.contents.length < 2 ^ 31) (hfree : CollisionFree (files ++ more))
    (hpaths : ((files ++ more).map File.path).Nodup) (h : more.foldlM handleFile s = .ok s') :
    Crawled s' (files ++ more) ∧
      ∀ f ∈ more, f.contents ≠ [] ∧ ∃ r, parseIntoWordPositionsTable f.contents = .ok r := by
  induction more generalizing s files with
  | nil =>
      obtain rfl : s = s' := by simpa using h
      exact ⟨by rwa [List.append_nil], by simp⟩
  | cons f more ih =>
      have hassoc : files ++ [f] ++ more = files ++ f :: more := by simp
      rw [List.foldlM_cons] at h
      obtain ⟨s₁, hf, h⟩ := Run.bind_eq_ok.mp h
      obtain ⟨hs₁, hne, hparse⟩ := handleFile_crawled hs (hlen f (by simp)) (hash_new hfree hpaths) hf
      obtain ⟨hs', hrest⟩ := ih hs₁ (by rwa [hassoc]) (by rwa [hassoc]) (by rwa [hassoc]) h
      rw [hassoc] at hs'
      refine ⟨hs', ?_⟩
      intro g hg
      rcases List.mem_cons.mp hg with rfl | hg
      · exact ⟨hne, hparse⟩
      · exact hrest g hg

theorem handleFiles_new {s : Crawl} {files more : List File} (hs : Crawled s files)
    (hlen : ∀ f ∈ files ++ more, f.contents.length < 2 ^ 31)
    (hparse : ∀ f ∈ files, ∃ r, parseIntoWordPositionsTable f.contents = .ok r)
    (hfree : CollisionFree (files ++ more)) (hpaths : ((files ++ more).map File.path).Nodup)
    (hne : ∀ f ∈ more, f.contents ≠ []) (hcap : Capacity (files ++ more)) :
    ∃ s', more.foldlM handleFile s = .ok s' := by
  induction more generalizing s files with
  | nil => exact ⟨s, rfl⟩
  | cons f more ih =>
      have hassoc : files ++ [f] ++ more = files ++ f :: more := by simp
      have hnew := hash_new hfree hpaths
      rw [← hassoc] at hlen hfree hpaths hcap
      obtain ⟨s₁, hf⟩ := handleFile_new hs (fun g hg => hlen g (List.mem_append_left _ hg)) hparse
        hfree.of_append (fun g hg he => hnew g hg (by rw [he])) (hne f (by simp)) hcap.of_append
      obtain ⟨hs₁, _, hf'⟩ := handleFile_crawled hs (hlen f (by simp)) hnew hf
      obtain ⟨s', h⟩ := ih hs₁ hlen (by
        intro g hg
        rcases List.mem_append.mp hg with hg | hg
        · exact hparse g hg
        · rw [List.mem_singleton.mp hg]
          exact hf') hfree hpaths (fun g hg => hne g (by simp [hg])) hcap
      refine ⟨s', ?_⟩
      rw [List.foldlM_cons, hf, Run.ok_bind]
      exact h

/-- The file's table has the word, at these positions. -/
def TableHolds (f : File) (word : Bytes) (ps : List UInt64) : Prop :=
  ∃ tab wp, parseIntoWordPositionsTable f.contents = .ok (some tab) ∧
    tab.lookup (hashString word) = some wp ∧ wp.word = word ∧ wp.positions.payloads = ps

/-- The index has the word for the document with this name, at these positions. -/
def IndexHolds (s : Crawl) (word path : Bytes) (ps : List UInt64) : Prop :=
  ∃ docId wp p, s.docTable.getDocName docId = .ok (some path) ∧
    s.index.lookup (hashString word) = some wp ∧ wp.word = word ∧
    wp.postings.lookup docId = some p ∧ p.payloads = ps

/-- The documents are the files with a table, and the index is their tables
turned around. -/
structure Covers (s : Crawl) (files : List File) : Prop where
  docs : ∀ path, (∃ docId, s.docTable.getDocName docId = .ok (some path)) ↔
    ∃ f ∈ files, f.path = path ∧ ∃ tab, parseIntoWordPositionsTable f.contents = .ok (some tab)
  ids : ∀ path docId, s.docTable.getDocName docId = .ok (some path) → s.docTable.getDocID path = .ok docId
  registered : ∀ key docId p, s.index.postingsAt key docId = some p →
    ∃ path, s.docTable.getDocName docId = .ok (some path)
  postings : ∀ word path ps, IndexHolds s word path ps ↔ ∃ f ∈ files, f.path = path ∧ TableHolds f word ps

section

variable {s : Crawl} {files : List File}

theorem Crawled.getDocName (hs : Crawled s files) {docId : DocID} {path : Bytes} :
    s.docTable.getDocName docId = .ok (some path) ↔
      ∃ i tab, (indexed files)[i]? = some (path, tab) ∧ docId = DocTable.idAt i := by
  rw [DocTable.getDocName_eq hs.docs]
  simp only [List.getElem?_map, Option.map_eq_some_iff]
  constructor
  · rintro ⟨i, ⟨⟨_, tab⟩, hi, rfl⟩, rfl⟩
    exact ⟨i, tab, hi, rfl⟩
  · rintro ⟨i, tab, hi, rfl⟩
    exact ⟨i, ⟨⟨path, tab⟩, hi, rfl⟩, rfl⟩

theorem Crawled.idAt_inj (hs : Crawled s files) {i j : Nat} {d e : Bytes × WordTable}
    (hi : (indexed files)[i]? = some d) (hj : (indexed files)[j]? = some e)
    (h : DocTable.idAt i = DocTable.idAt j) : d = e := by
  have hle := hs.docs.length_le
  rw [List.length_map] at hle
  have hlti : i < (indexed files).length := (List.getElem?_eq_some_iff.mp hi).1
  have hltj : j < (indexed files).length := (List.getElem?_eq_some_iff.mp hj).1
  have hij := DocTable.idAt_inj (by omega) (by omega) h
  rw [hij, hj] at hi
  exact (Option.some.inj hi).symm

theorem Crawled.indexHolds (hs : Crawled s files) (hlen : ∀ f ∈ files, f.contents.length < 2 ^ 31)
    (hfree : CollisionFree files) (word path : Bytes) (ps : List UInt64) :
    IndexHolds s word path ps ↔ ∃ f ∈ files, f.path = path ∧ TableHolds f word ps := by
  constructor
  · rintro ⟨docId, wp, p, hname, hl, hword, hp, hps⟩
    obtain ⟨i, tab, hi, rfl⟩ := hs.getDocName.mp hname
    have hpost : s.index.postingsAt (hashString word) (DocTable.idAt i) = some p := by
      rw [MemIndex.postingsAt, hl]
      exact hp
    obtain ⟨a, ha, hhash, hdoc, hap⟩ := (hs.index.entries _ _ _).mp hpost
    obtain ⟨b, hb, hbword, _⟩ := hs.index.words _ _ hl
    have hsame : a.word = word := by
      apply hfree.words _ (word_mem hlen ha) _ _ hhash
      rw [← hword, ← hbword]
      exact word_mem hlen hb
    obtain ⟨j, path', tab', hj, ha⟩ := mem_postingsFrom.mp ha
    obtain ⟨hdoc', key, htab⟩ := mem_postingsOf.mp ha
    obtain ⟨rfl, rfl⟩ : path = path' ∧ tab = tab' := by
      simpa using hs.idAt_inj hi hj (by rw [← hdoc', hdoc])
    obtain ⟨f, hf, rfl, htable⟩ := mem_indexed.mp (List.mem_of_getElem? hi)
    have hkey := ((tableOf_parsed (hlen f hf) htable).key key _ htab).1
    refine ⟨f, hf, rfl, tab, ⟨a.word, a.postings⟩, tableOf_eq_some.mp htable, ?_, hsame, by rw [hap, hps]⟩
    rw [← hsame, hkey, htab]
  · rintro ⟨f, hf, rfl, tab, wp, hparse, hl, rfl, rfl⟩
    have hmem : (f.path, tab) ∈ indexed files := mem_indexed.mpr ⟨f, hf, rfl, tableOf_eq_some.mpr hparse⟩
    obtain ⟨i, hi⟩ := List.getElem?_of_mem hmem
    have ha : (⟨wp.word, DocTable.idAt i, wp.positions⟩ : Posting) ∈ postingsFrom (indexed files) :=
      mem_postingsFrom.mpr ⟨i, _, _, hi, mem_postingsOf.mpr ⟨rfl, _, hl⟩⟩
    obtain ⟨wp', hl', hword⟩ := hs.index.word _ ha
    have hpost := (hs.index.entries (hashString wp.word) (DocTable.idAt i) wp.positions).mpr ⟨_, ha, rfl, rfl, rfl⟩
    rw [MemIndex.postingsAt, hl'] at hpost
    exact ⟨DocTable.idAt i, wp', wp.positions, hs.getDocName.mpr ⟨i, tab, hi, rfl⟩, hl', hword, hpost, rfl⟩

theorem Crawled.covers (hs : Crawled s files) (hlen : ∀ f ∈ files, f.contents.length < 2 ^ 31)
    (hfree : CollisionFree files) : Covers s files where
  docs := by
    intro path
    constructor
    · rintro ⟨docId, hname⟩
      obtain ⟨i, tab, hi, _⟩ := hs.getDocName.mp hname
      obtain ⟨f, hf, hpath, htab⟩ := mem_indexed.mp (List.mem_of_getElem? hi)
      exact ⟨f, hf, hpath, tab, tableOf_eq_some.mp htab⟩
    · rintro ⟨f, hf, rfl, tab, hparse⟩
      obtain ⟨i, hi⟩ := List.getElem?_of_mem (mem_indexed.mpr ⟨f, hf, rfl, tableOf_eq_some.mpr hparse⟩)
      exact ⟨DocTable.idAt i, hs.getDocName.mpr ⟨i, tab, hi, rfl⟩⟩
  ids := by
    intro path docId hname
    obtain ⟨i, hi, rfl⟩ := (DocTable.getDocName_eq hs.docs).mp hname
    exact DocTable.getDocID_eq hs.docs hi
  registered := by
    intro key docId p hpost
    obtain ⟨a, ha, _, rfl, _⟩ := (hs.index.entries _ _ _).mp hpost
    obtain ⟨i, path, tab, hi, ha⟩ := mem_postingsFrom.mp ha
    exact ⟨path, hs.getDocName.mpr ⟨i, tab, hi, (mem_postingsOf.mp ha).1⟩⟩
  postings := hs.indexHolds hlen hfree

theorem Crawled.capacity (hs : Crawled s files) (hlen : ∀ f ∈ files, f.contents.length < 2 ^ 31)
    (hparse : ∀ f ∈ files, ∃ r, parseIntoWordPositionsTable f.contents = .ok r) : Capacity files where
  docs := by
    have hfit := hs.docs.ids.fits
    rw [hs.docs.numIds, List.length_map, length_indexed hlen hparse] at hfit
    exact fits_docs.mp hfit
  words := by
    have hfit := hs.index.grown.fits
    rw [hs.index.numWords, words_postings hlen hparse] at hfit
    exact fits_words.mp hfit

end

section

variable {files order : List File} (horder : order.Perm files)
include horder

theorem wordsOf_perm : (wordsOf order).Perm (wordsOf files) :=
  horder.flatMap_right fun f : File => (tokens f.contents).map Token.word

theorem Capacity.perm (h : Capacity files) : Capacity order := by
  constructor
  · rw [horder.countP_eq]
    exact h.docs
  · rw [List.toFinset_eq_of_perm _ _ (wordsOf_perm horder)]
    exact h.words

theorem CollisionFree.perm (h : CollisionFree files) : CollisionFree order := by
  constructor
  · intro f hf g hg
    exact h.paths f (horder.mem_iff.mp hf) g (horder.mem_iff.mp hg)
  · intro u hu v hv
    exact h.words u ((wordsOf_perm horder).mem_iff.mp hu) v ((wordsOf_perm horder).mem_iff.mp hv)

theorem Covers.perm {s : Crawl} (h : Covers s order) : Covers s files := by
  constructor
  · intro path
    simp only [h.docs, horder.mem_iff]
  · exact h.ids
  · exact h.registered
  · intro word path ps
    simp only [h.postings, horder.mem_iff]

end

theorem start_crawled : ∃ docTable index, DocTable.allocate = .ok docTable ∧ MemIndex.allocate = .ok index ∧
    Crawled ⟨docTable, index⟩ [] := by
  obtain ⟨docTable, hdocs, hreg⟩ := DocTable.allocate_registers
  obtain ⟨index, hindex, _⟩ := allocate_grown (V := WordPostings) (n := MemIndex.initBuckets) (by decide) (by decide)
  exact ⟨docTable, index, hdocs, hindex, hreg, MemIndex.allocate_indexes hindex⟩

variable (qsort : Sorter fun e1 e2 => alphasort e1 e2 < 0)

theorem crawlFileTree_order (rootDir : Bytes) (d : Dir) (hd : d.Valid MAX_NUM_DIR_ENTRIES) :
    ∃ (start : Crawl) (order : List File), Crawled start [] ∧ order.Perm (d.files rootDir) ∧
      crawlFileTree qsort rootDir (some (.dir d)) = do
        let s ← order.foldlM handleFile start
        return some s := by
  obtain ⟨docTable, index, hdocs, hindex, hstart⟩ := start_crawled
  obtain ⟨order, horder, hrun⟩ := handleDir_order qsort (d.depth + 1) rootDir d (Nat.lt_succ_self _) hd
  refine ⟨_, order, hstart, horder, ?_⟩
  simp only [crawlFileTree, hdocs, hindex, Run.ok_bind, hrun]

theorem crawlFileTree_new (rootDir : Bytes) (d : Dir) (hd : d.Valid MAX_NUM_DIR_ENTRIES)
    (hlen : ∀ f ∈ d.files rootDir, f.contents.length < 2 ^ 31) (hfree : CollisionFree (d.files rootDir))
    (hne : ∀ f ∈ d.files rootDir, f.contents ≠ []) (hcap : Capacity (d.files rootDir)) :
    ∃ (s : Crawl) (order : List File), order.Perm (d.files rootDir) ∧
      crawlFileTree qsort rootDir (some (.dir d)) = .ok (some s) ∧
      Crawled s order := by
  obtain ⟨start, order, hstart, horder, hcrawl⟩ := crawlFileTree_order qsort rootDir d hd
  have hlen' : ∀ f ∈ [] ++ order, f.contents.length < 2 ^ 31 := fun f hf => hlen f (horder.mem_iff.mp hf)
  have hfree' : CollisionFree ([] ++ order) := hfree.perm horder
  have hpaths : (([] ++ order).map File.path).Nodup :=
    (horder.map File.path).nodup_iff.mpr (nodup_paths d rootDir hd)
  obtain ⟨s, h⟩ := handleFiles_new hstart hlen' (by simp) hfree' hpaths
    (fun f hf => hne f (horder.mem_iff.mp hf)) (hcap.perm horder)
  obtain ⟨hs, _⟩ := handleFiles_crawled hstart hlen' hfree' hpaths h
  exact ⟨s, order, horder, by rw [hcrawl, h, Run.ok_bind, Run.pure_eq_ok], hs⟩

/-- A crawl of a directory tree covers it exactly when no file of it is empty
and its tables stay within int. -/
theorem covers_documented_iff (rootDir : Bytes) (d : Dir) (hd : d.Valid MAX_NUM_DIR_ENTRIES)
    (hlen : ∀ f ∈ d.files rootDir, f.contents.length < 2 ^ 31) (hfree : CollisionFree (d.files rootDir)) :
    (∃ s, crawlFileTree qsort rootDir (some (.dir d)) = .ok (some s) ∧ Covers s (d.files rootDir)) ↔
      (∀ f ∈ d.files rootDir, f.contents ≠ []) ∧ Capacity (d.files rootDir) := by
  constructor
  · obtain ⟨start, order, hstart, horder, hcrawl⟩ := crawlFileTree_order qsort rootDir d hd
    have hlen' : ∀ f ∈ [] ++ order, f.contents.length < 2 ^ 31 := fun f hf => hlen f (horder.mem_iff.mp hf)
    have hpaths : (([] ++ order).map File.path).Nodup :=
      (horder.map File.path).nodup_iff.mpr (nodup_paths d rootDir hd)
    rintro ⟨s, h, _⟩
    rw [hcrawl] at h
    obtain ⟨s', hfiles, _⟩ := Run.bind_eq_ok.mp h
    obtain ⟨hs, hall⟩ := handleFiles_crawled hstart hlen' (hfree.perm horder) hpaths hfiles
    refine ⟨fun f hf => (hall f (horder.mem_iff.mpr hf)).1, ?_⟩
    exact (hs.capacity hlen' fun f hf => (hall f hf).2).perm horder.symm
  · rintro ⟨hne, hcap⟩
    obtain ⟨s, order, horder, h, hs⟩ := crawlFileTree_new qsort rootDir d hd hlen hfree hne hcap
    refine ⟨s, h, ?_⟩
    exact (hs.covers (fun f hf => hlen f (horder.mem_iff.mp hf)) (hfree.perm horder)).perm horder

/-- A directory with a text below a subdirectory and a file that is not ASCII. -/
def smallTree : Dir :=
  .dots (.sub (ascii ['d']) (.file (ascii ['f']) (ascii ['B', 'y', ' ', 'b', 'y', '.']) .nil)
    (.file (ascii ['e']) [0xff] .nil))

end SearchEngine.CrawlFileTree
