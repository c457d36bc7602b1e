import SearchEngine.QuerySafety
import SearchEngine.DanglingIndex

/-! When the ranks of a query are the sums that they stand for. -/

namespace SearchEngine

namespace MemIndex

/-- A loop over the results that comes to its end had room for every sum. -/
theorem intersectResults_fits {postings : HashTable Postings} (todo : List (LLNode SearchResult))
    (retList l : LinkedList SearchResult) (done : List (LLNode SearchResult))
    (hl : retList.nodes = done ++ todo) (llIt : LLIterator)
    (hit : ∀ n rest, todo = n :: rest → llIt = ⟨some n.addr⟩)
    (hrun : intersectResults postings todo.length llIt retList = .ok l) :
    ∀ n ∈ todo, ∀ sr ∈ refineResult postings n.payload, sr.rank ≤ INT_MAX := by
  induction todo generalizing retList done llIt with
  | nil => simp
  | cons n todo ih =>
      obtain rfl := hit n todo rfl
      simp only [List.length_cons, intersectResults, LLIterator.get_eq hl, Run.ok_bind, HashTable.find_eq] at hrun
      cases hlook : postings.lookup n.payload.docId with
      | some p =>
          simp only [hlook, Option.map_some] at hrun
          obtain ⟨rank, hadd, hrun⟩ := Run.bind_eq_ok.mp hrun
          obtain ⟨hle, rfl⟩ := intAdd_eq_ok.mp hadd
          have hmod := LLIterator.modify_nodes hl fun sr =>
            { sr with rank := n.payload.rank + p.numElements }
          rw [LLIterator.next_eq hmod, Run.ok_bind] at hrun
          have hrest := ih _ (done ++ [⟨n.addr, ⟨n.payload.docId, n.payload.rank + p.numElements⟩⟩])
            (by rw [hmod]; simp) ⟨todo.head?.map LLNode.addr⟩ (by rintro m rest rfl; rfl) hrun
          intro m hm sr hsr
          rcases List.mem_cons.mp hm with rfl | hm
          · simp only [refineResult, hlook, Option.map_some, Option.mem_some_iff] at hsr
            rw [← hsr]
            exact hle
          · exact hrest m hm sr hsr
      | none =>
          obtain ⟨l₁, hrem, hnodes⟩ := LLIterator.remove_spec hl
          simp only [hlook, Option.map_none, hrem, Run.ok_bind] at hrun
          have hrest := ih l₁ done hnodes ⟨(todo.head?.or done.getLast?).map LLNode.addr⟩
            (by rintro m rest rfl; rfl) hrun
          intro m hm sr hsr
          rcases List.mem_cons.mp hm with rfl | hm
          · simp [refineResult, hlook] at hsr
          · exact hrest m hm sr hsr

theorem ranksFit_nil (index : MemIndex) (query : List Bytes) : RanksFit index query [] := by
  intro q _ sr hsr
  simp at hsr

theorem ranksFit_cons {index : MemIndex} {word : Bytes} {query : List Bytes} {rs : List SearchResult}
    (hfirst : ∀ sr ∈ rs, sr.rank ≤ INT_MAX) (h : RanksFit index query (rs.filterMap (refineBy index [word]))) :
    RanksFit index (word :: query) rs := by
  intro q hq sr hsr
  cases q with
  | nil =>
      rw [refineBy_nil, List.filterMap_some] at hsr
      exact hfirst sr hsr
  | cons w q =>
      obtain ⟨rfl, htail⟩ := List.cons_prefix_cons.mp hq
      rw [filterMap_refineBy_cons] at hsr
      exact h q htail sr hsr

theorem searchRest_fits (index : MemIndex) (query : List Bytes) (retList : LinkedList SearchResult)
    (hfirst : ∀ sr ∈ retList.payloads, sr.rank ≤ INT_MAX) {res : Option (LinkedList SearchResult)}
    (hrun : searchRest index query retList = .ok res) : RanksFit index query retList.payloads := by
  induction query generalizing retList with
  | nil =>
      intro q hq sr hsr
      obtain rfl := List.prefix_nil.mp hq
      rw [refineBy_nil, List.filterMap_some] at hsr
      exact hfirst sr hsr
  | cons word query ih =>
      apply ranksFit_cons hfirst
      simp only [searchRest, HashTable.find_eq, Run.ok_bind] at hrun
      cases hlook : index.lookup (hashString word) with
      | none =>
          have hnone (sr : SearchResult) : refineBy index [word] sr = none := by
            simp [refineBy, queryRank, postingsAt, hlook]
          rw [List.filterMap_congr (g := fun _ => none) fun sr _ => hnone sr]
          simpa using ranksFit_nil index query
      | some wp =>
          simp only [hlook, Option.map_some] at hrun
          obtain ⟨l, hloop, hrun⟩ := Run.bind_eq_ok.mp hrun
          have hit : ∀ n rest, retList.nodes = n :: rest → LLIterator.allocate retList = ⟨some n.addr⟩ :=
            fun n rest h => by simp [LLIterator.allocate, h]
          have hfit := intersectResults_fits retList.nodes retList l [] rfl (LLIterator.allocate retList) hit hloop
          obtain ⟨l', hloop', hp⟩ := intersectResults_spec retList.nodes retList [] rfl (LLIterator.allocate retList)
            hit hfit
          obtain rfl : l' = l := by
            have hsame := hloop'.symm.trans hloop
            cases hsame
            rfl
          have hpl : l'.payloads = retList.payloads.filterMap (refineBy index [word]) := by
            rw [hp, refineBy_single hlook]
            rfl
          rw [← hpl]
          split at hrun
          · next hzero =>
            rw [List.eq_nil_of_length_eq_zero (by rw [LinkedList.length_payloads, hzero] : l'.payloads.length = 0)]
            exact ranksFit_nil index query
          · refine ih l' ?_ hrun
            intro sr hsr
            rw [hp, List.map_nil, List.nil_append, List.mem_filterMap] at hsr
            obtain ⟨sr₀, hsr₀, hrefine⟩ := hsr
            obtain ⟨n, hn, rfl⟩ := List.mem_map.mp hsr₀
            exact hfit n hn sr hrefine

/-- A search that returns added up nothing beyond the range of an int. -/
theorem search_fits {index : MemIndex} {word : Bytes} {query : List Bytes} {res : Option (LinkedList SearchResult)}
    (hfirst : ∀ docId, ∀ r ∈ index.queryRank [word] docId, r ≤ INT_MAX)
    (hrun : search index (word :: query) = .ok res) :
    ∀ q, q <+: word :: query → ∀ docId, ∀ r ∈ index.queryRank q docId, r ≤ INT_MAX := by
  intro q hq docId r hr
  cases q with
  | nil =>
      obtain rfl : 0 = r := Option.some.inj hr
      exact Nat.zero_le _
  | cons w q =>
      obtain ⟨rfl, htail⟩ := List.cons_prefix_cons.mp hq
      cases hlook : index.lookup (hashString w) with
      | none => simp [queryRank, postingsAt, hlook] at hr
      | some wp =>
          obtain ⟨it, hit, hpoints⟩ := HTIterator.allocate_spec wp.postings
          obtain ⟨first, hcollect, hp⟩ := collectResults_spec wp.postings.pairs (wp.postings.numElements + 1)
            (by rw [HashTable.length_pairs]; omega) it hpoints .allocate
          rw [LinkedList.payloads_allocate, List.nil_append] at hp
          replace hp : first.payloads = firstResults wp.postings := hp
          simp only [search, HashTable.find_eq, Run.ok_bind, hlook, Option.map_some, hit, hcollect] at hrun
          obtain ⟨rest, hrest, _⟩ := Run.bind_eq_ok.mp hrun
          have hfit := searchRest_fits index query first (by
            intro sr hsr
            rw [hp, mem_firstResults] at hsr
            obtain ⟨p, hlookup, hrank⟩ := Option.map_eq_some_iff.mp hsr
            refine hfirst sr.docId sr.rank ?_
            simp [queryRank, postingsAt, hlook, hlookup, hrank]) hrest
          have hmem : (⟨docId, r⟩ : SearchResult) ∈ (firstResults wp.postings).filterMap (refineBy index q) :=
            (mem_refined hlook _).mpr hr
          rw [← hp] at hmem
          exact hfit q htail _ hmem

/-- A document that the query's hashes lead to has no position under a hash
that is another word's. -/
def OwnWords (adds : List Posting) (query : List Bytes) : Prop :=
  ∀ docId, (∀ w ∈ query, ∃ a ∈ adds, hashString a.word = hashString w ∧ a.docId = docId) →
    ∀ w ∈ query, ∀ a ∈ adds, hashString a.word = hashString w → a.docId = docId →
      a.word = w ∨ a.postings.numElements = 0

section

variable {index : MemIndex} {adds : List Posting} {word : Bytes} {docId : DocID} {a : Posting}

/-- The posting list under a word's hash counts for the word unless it is
another word's. -/
theorem positionCount_eq_iff (hidx : Indexes index adds) (ha : a ∈ adds) (hhash : hashString a.word = hashString word)
    (hdoc : a.docId = docId) :
    positionCount adds word docId ≤ a.postings.numElements ∧
      (positionCount adds word docId = a.postings.numElements ↔ a.word = word ∨ a.postings.numElements = 0) := by
  have hentry := (hidx.entries (hashString word) docId a.postings).mpr ⟨a, ha, hhash, hdoc, rfl⟩
  rw [positionCount]
  cases hfound : adds.find? fun b => b.word = word ∧ b.docId = docId with
  | some b =>
      have hb : b.word = word ∧ b.docId = docId := by simpa using List.find?_some hfound
      have hmem := List.mem_of_find?_eq_some hfound
      have hentry' := (hidx.entries (hashString word) docId b.postings).mpr ⟨b, hmem, by rw [hb.1], hb.2, rfl⟩
      have hsame : b.postings = a.postings := by
        rw [hentry] at hentry'
        exact (Option.some.inj hentry').symm
      obtain ⟨wp, hl, hword⟩ := hidx.word a ha
      obtain ⟨wp', hl', hword'⟩ := hidx.word b hmem
      rw [hhash] at hl
      rw [hb.1, hl] at hl'
      obtain rfl := Option.some.inj hl'
      simp only [Option.map_some, Option.getD_some, hsame, le_refl, true_and, true_iff]
      exact .inl (by rw [← hword, hword', hb.1])
  | none =>
      simp only [Option.map_none, Option.getD_none, Nat.zero_le, true_and]
      constructor
      · intro hz
        exact .inr hz.symm
      · rintro (hword | hz)
        · have hnot := List.find?_eq_none.mp hfound a ha
          simp [hword, hdoc] at hnot
        · exact hz.symm

theorem queryRank_isSome (hidx : Indexes index adds) (query : List Bytes) :
    (∃ r, index.queryRank query docId = some r) ↔
      ∀ w ∈ query, ∃ a ∈ adds, hashString a.word = hashString w ∧ a.docId = docId := by
  induction query with
  | nil => simp [queryRank]
  | cons w query ih =>
      rw [List.forall_mem_cons, ← ih]
      simp only [queryRank, Option.bind_eq_some_iff, Option.map_eq_some_iff, hidx.entries]
      constructor
      · rintro ⟨_, p, ⟨a, ha, hhash, hdoc, _⟩, r, hr, _⟩
        exact ⟨⟨a, ha, hhash, hdoc⟩, r, hr⟩
      · rintro ⟨⟨a, ha, hhash, hdoc⟩, r, hr⟩
        exact ⟨_, a.postings, ⟨a, ha, hhash, hdoc, rfl⟩, r, hr, rfl⟩

/-- What the index counts for a document is the sum for the query's words
exactly when no position of another word is among it. -/
theorem queryRank_exact_iff (hidx : Indexes index adds) (query : List Bytes) {r : Nat}
    (hr : index.queryRank query docId = some r) :
    rankSum adds query docId ≤ r ∧ (r = rankSum adds query docId ↔
      ∀ w ∈ query, ∀ a ∈ adds, hashString a.word = hashString w → a.docId = docId →
        a.word = w ∨ a.postings.numElements = 0) := by
  induction query generalizing r with
  | nil =>
      obtain rfl : 0 = r := Option.some.inj hr
      simp [rankSum]
  | cons w query ih =>
      simp only [queryRank, Option.bind_eq_some_iff, Option.map_eq_some_iff] at hr
      obtain ⟨p, hp, r', hr', rfl⟩ := hr
      obtain ⟨b, hb, hhash, hdoc, rfl⟩ := (hidx.entries _ _ _).mp hp
      obtain ⟨hle, heq⟩ := ih hr'
      obtain ⟨hcount, hword⟩ := positionCount_eq_iff hidx hb hhash hdoc
      have hsum : rankSum adds (w :: query) docId = positionCount adds w docId + rankSum adds query docId := by
        simp [rankSum]
      have honly (a : Posting) (ha : a ∈ adds) (hhash' : hashString a.word = hashString w) (hdoc' : a.docId = docId) :
          a.word = w ∨ a.postings.numElements = 0 ↔ b.word = w ∨ b.postings.numElements = 0 := by
        rw [← hword, ← (positionCount_eq_iff hidx ha hhash' hdoc').2]
        have hentry := (hidx.entries (hashString w) docId a.postings).mpr ⟨a, ha, hhash', hdoc', rfl⟩
        rw [hp] at hentry
        rw [Option.some.inj hentry]
      have hhead : (∀ a ∈ adds, hashString a.word = hashString w → a.docId = docId →
          a.word = w ∨ a.postings.numElements = 0) ↔ b.word = w ∨ b.postings.numElements = 0 :=
        ⟨fun h => h b hb hhash hdoc, fun h a ha hhash' hdoc' => (honly a ha hhash' hdoc').mpr h⟩
      rw [List.forall_mem_cons, hhead, ← hword, ← heq, hsum]
      omega

theorem ownWords_iff (hidx : Indexes index adds) (query : List Bytes) :
    OwnWords adds query ↔ ∀ docId r, index.queryRank query docId = some r → r = rankSum adds query docId := by
  constructor
  · intro h docId r hr
    exact (queryRank_exact_iff hidx query hr).2.mpr (h docId ((queryRank_isSome hidx query).mp ⟨r, hr⟩))
  · intro h docId hall
    obtain ⟨r, hr⟩ := (queryRank_isSome hidx query).mpr hall
    exact (queryRank_exact_iff hidx query hr).2.mp (h docId r hr)

end

end MemIndex

namespace QueryProcessor

open FileProgram HashTableReader MemIndex OpenFile Program

section

variable {image : FileImage} {find : Bytes → Option WordPostings} {names : DocID → Option Bytes}
  {dtr itr : HashTableReader} {word : Bytes} {query : List Bytes}

theorem documentResults_named {idList : List DocIDElementHeader}
    (hdocs : ∀ header ∈ idList, ∃ name, names header.docId = some name ∧
      Returns image (DocTableReader.lookupDocID dtr header.docId) (some name)) :
    ∃ results, Returns image (documentResults dtr idList) results ∧
      ∀ res ∈ results, ∃ header ∈ idList, names header.docId = some res.documentName ∧
        res.rank = header.numPositions := by
  induction idList with
  | nil => exact ⟨[], .pure image _, by simp⟩
  | cons header idList ih =>
      obtain ⟨name, hname, hlook⟩ := hdocs header (by simp)
      obtain ⟨results, hrest, hall⟩ := ih fun header' hheader => hdocs header' (by simp [hheader])
      refine ⟨⟨name, header.numPositions⟩ :: results, hlook.bind (hrest.bind (.pure image _)), ?_⟩
      intro res hres
      rcases List.mem_cons.mp hres with rfl | hres
      · exact ⟨header, by simp, hname, rfl⟩
      · obtain ⟨header', hmem, hheader⟩ := hall res hres
        exact ⟨header', by simp [hmem], hheader⟩

/-- The results of one index file, when no sum overflows: each is a document
that has all the words, with its rank. -/
theorem queryIndex_ranks (hfind : ∀ w ∈ word :: query, FindsWordPostings image find itr w)
    (hdocs : ∀ wp docId p, find word = some wp → wp.postings.lookup docId = some p →
      ∃ name, names docId = some name ∧ Returns image (DocTableReader.lookupDocID dtr docId) (some name))
    (hfit : SumsFit find (word :: query)) :
    ∃ results live, Returns image (queryIndex dtr itr word query) (results, live) ∧
      ∀ res ∈ results, ∃ docId r, names docId = some res.documentName ∧
        rankOf find (word :: query) docId = some r ∧ res.rank = (r : Nat) := by
  obtain ⟨found, hres, hfound⟩ := hfind word (by simp)
  cases found with
  | none => exact ⟨[], 0, hres.bind (.pure image _), by simp⟩
  | some didtr =>
      obtain ⟨wp, hword, hreads⟩ := hfound
      obtain ⟨idList, hids, hlist⟩ := getDocIDList_lists hword hreads
      rw [sumsFit_cons (countOf_le hword hreads)] at hfit
      rcases intersectWords_spec (fun w hw => hfind w (List.mem_cons_of_mem word hw)) hlist with
        ⟨_, candidates, hcand, hvalid⟩ | ⟨hnot, _⟩
      · by_cases hsome : candidates.isValid = true
        · have hall := hvalid hsome
          have hnames : ∀ header ∈ candidates.idList, ∃ name, names header.docId = some name ∧
              Returns image (DocTableReader.lookupDocID dtr header.docId) (some name) := by
            intro header hheader
            obtain ⟨r, hr, _⟩ := (hall header).mp hheader
            obtain ⟨n, hn⟩ := rankOf_prefix hr
            rw [rankOf_singleton, countOf, hword, Option.bind_some, Option.map_eq_some_iff] at hn
            obtain ⟨p, hp, _⟩ := hn
            exact hdocs wp header.docId p hword hp
          obtain ⟨results, hresults, hranks⟩ := documentResults_named hnames
          refine ⟨results, candidates.live, hres.bind (hids.bind (hcand.bind ?_)), ?_⟩
          · rw [if_pos hsome]
            exact hresults.bind (.pure image _)
          · intro res hmem
            obtain ⟨header, hheader, hname, hrank⟩ := hranks res hmem
            obtain ⟨r, hr, hnum⟩ := (hall header).mp hheader
            exact ⟨header.docId, r, hname, hr, by rw [hrank, hnum]⟩
        · refine ⟨[], candidates.live, hres.bind (hids.bind (hcand.bind ?_)), by simp⟩
          rw [if_neg hsome]
          exact .pure image _
      · exact absurd hfit hnot

end

namespace IndexedFile

variable {x : IndexedFile} {word : Bytes} {query : List Bytes} {docId : DocID}

theorem indexes (x : IndexedFile) : x.mi.Indexes x.adds := MemIndex.build_indexes x.memIndex

theorem findsWordPostings (x : IndexedFile) (word : Bytes) :
    FindsWordPostings x.file.image x.mi.stored x.itr word := by
  obtain ⟨res, hres, hspec⟩ := IndexTableReader.lookupWord_returns x.indexFile.1.words x.representable.words
    (fun kv hkv => x.indexes.hash_word hkv) word
  refine ⟨res, hres, ?_⟩
  cases res with
  | none =>
      apply Option.eq_none_iff_forall_ne_some.mpr
      intro wp hstored
      obtain ⟨hl, hword⟩ := (stored_eq_some x.indexes x.wordBytes).mp hstored
      exact hspec wp hl hword
  | some didtr =>
      obtain ⟨wp, hl, hword, hreads⟩ := hspec
      exact ⟨wp, (stored_eq_some x.indexes x.wordBytes).mpr ⟨hl, hword⟩, hreads⟩

/-- The file counts a word that it has as the index does. -/
theorem queryRank_of_rankOf {words : List Bytes} {r : Nat} (h : rankOf x.mi.stored words docId = some r) :
    x.mi.queryRank words docId = some r := by
  induction words generalizing r with
  | nil => exact h
  | cons word words ih =>
      simp only [rankOf, Option.bind_eq_some_iff, Option.map_eq_some_iff] at h
      obtain ⟨n, hn, r', hr', rfl⟩ := h
      simp only [countOf, Option.bind_eq_some_iff, Option.map_eq_some_iff] at hn
      obtain ⟨wp, hstored, p, hp, rfl⟩ := hn
      obtain ⟨hl, _⟩ := (stored_eq_some x.indexes x.wordBytes).mp hstored
      simp [queryRank, postingsAt, hl, hp, ih hr']

/-- The counts of single words fit, since the file has room for the positions. -/
theorem queryRank_one (x : IndexedFile) (word : Bytes) (docId : DocID) :
    ∀ r ∈ x.mi.queryRank [word] docId, r ≤ INT_MAX := by
  intro r hr
  obtain ⟨p, hp, r', hr', hsum⟩ : ∃ p, x.mi.postingsAt (hashString word) docId = some p ∧
      ∃ r', some 0 = some r' ∧ p.numElements + r' = r := by
    simpa [queryRank, Option.bind_eq_some_iff] using hr
  obtain ⟨wp, hl, hlookup⟩ := Option.bind_eq_some_iff.mp hp
  obtain ⟨a, _, hword, hhash⟩ := x.indexes.words _ _ hl
  have hstored : x.mi.stored wp.word = some wp :=
    (stored_eq_some x.indexes x.wordBytes).mpr ⟨by rw [← hword, hhash]; exact hl, rfl⟩
  obtain ⟨res, _, hfound⟩ := x.findsWordPostings wp.word
  cases res with
  | none =>
      rw [hstored] at hfound
      cases hfound
  | some didtr =>
      obtain ⟨wp', hwp', hreads⟩ := hfound
      rw [hstored] at hwp'
      obtain rfl := Option.some.inj hwp'
      refine countOf_le hstored hreads docId r ?_
      obtain rfl := Option.some.inj hr'
      rw [rankOf_singleton, countOf, hstored, Option.bind_some, hlookup]
      exact congrArg some hsum

/-- No posting list is empty, as none is that a crawl adds. -/
def Filled (x : IndexedFile) : Prop := ∀ a ∈ x.adds, a.postings.numElements ≠ 0

theorem queryRank_pos (hfilled : x.Filled) {r : Nat} (h : x.mi.queryRank (word :: query) docId = some r) : 0 < r := by
  simp only [queryRank, Option.bind_eq_some_iff, Option.map_eq_some_iff] at h
  obtain ⟨p, hp, r', _, rfl⟩ := h
  obtain ⟨a, ha, _, _, rfl⟩ := (x.indexes.entries _ _ _).mp hp
  have hpos := hfilled a ha
  omega

theorem hdocs (x : IndexedFile) {wp : WordPostings} {p : Postings} (hstored : x.mi.stored word = some wp)
    (hp : wp.postings.lookup docId = some p) :
    ∃ name, x.dt.idToName.lookup docId = some name ∧
      Returns x.file.image (DocTableReader.lookupDocID x.dtr docId) (some name) := by
  obtain ⟨hl, _⟩ := (stored_eq_some x.indexes x.wordBytes).mp hstored
  have hentry : x.mi.postingsAt (hashString word) docId = some p := by
    rw [postingsAt, hl]
    exact hp
  obtain ⟨a, ha, _, hdoc, _⟩ := (x.indexes.entries _ _ _).mp hentry
  obtain ⟨name, hname⟩ := x.registered a ha
  rw [hdoc] at hname
  have hlook := DocTable.lookup_of_getDocName hname
  refine ⟨name, hlook, ?_⟩
  have hreturns := DocTableReader.lookupDocID_returns x.indexFile.1.docs
    (fun kv hkv => (x.representable.names kv hkv).2) docId
  rwa [hlook] at hreturns

end IndexedFile

variable {indices : List IndexedFile} {word : Bytes} {query : List Bytes}

/-- A result is a document of one of the indices with all the query words, and
its rank is the sum of the numbers of their positions. -/
def Exact (indices : List IndexedFile) (query : List Bytes) (res : QueryResult) : Prop :=
  ∃ x ∈ indices, ∃ docId, x.dt.getDocName docId = .ok (some res.documentName) ∧ ContainsAll x.adds query docId ∧
    res.rank = (rankSum x.adds query docId : Nat) ∧ (x.Filled → 0 < res.rank)

theorem exact_of_rankOf {x : IndexedFile} (hx : x ∈ indices) {docId : DocID} {r : Nat} {res : QueryResult}
    (hname : x.dt.idToName.lookup docId = some res.documentName)
    (hr : rankOf x.mi.stored (word :: query) docId = some r) (hrank : res.rank = (r : Nat)) :
    Exact indices (word :: query) res := by
  obtain ⟨hall, rfl⟩ := (rankOf_stored x.indexes x.wordBytes).mp hr
  obtain ⟨a, ha, _, hdoc⟩ := hall word (by simp)
  obtain ⟨name, hget⟩ := x.registered a ha
  rw [hdoc] at hget
  have hsame := DocTable.lookup_of_getDocName hget
  rw [hname] at hsame
  obtain rfl := Option.some.inj hsame
  refine ⟨x, hx, docId, hget, hall, hrank, fun hfilled => ?_⟩
  have hpos := IndexedFile.queryRank_pos hfilled (IndexedFile.queryRank_of_rankOf hr)
  omega

theorem queryIndices_ranks {readers : List IndexReaders} (hserves : Serves readers indices)
    (hfit : ∀ x ∈ indices, SumsFit x.mi.stored (word :: query)) :
    ∃ results live readers', queryIndices word query readers = .ok (results, live, readers') ∧
      Serves readers' indices ∧ ∀ res ∈ results, Exact indices (word :: query) res := by
  induction hserves with
  | nil => exact ⟨[], 0, [], rfl, .nil, by simp⟩
  | @cons r x readers indices hr _ ih =>
      obtain ⟨hdtr, hitr, himage⟩ := hr
      obtain ⟨hx, hrest⟩ := List.forall_mem_cons.mp hfit
      obtain ⟨more, liveMore, readers', hmore, hserves', hexact⟩ := ih hrest
      obtain ⟨results, live, hreturns, hranks⟩ := queryIndex_ranks (fun w _ => x.findsWordPostings w)
        (fun wp docId p hstored hp => x.hdocs hstored hp) hx
      obtain ⟨pos, hrun⟩ := hreturns r.file.pos r.file.linked
      rw [← himage] at hrun
      refine ⟨results ++ more, live + liveMore, { r with file := ⟨r.file.image, pos, r.file.linked⟩ } :: readers',
        ?_, .cons ⟨hdtr, hitr, himage⟩ hserves', ?_⟩
      · rw [queryIndices, hdtr, hitr, hrun, Run.ok_bind]
        simp only [hmore, Run.ok_bind]
        rfl
      · intro res hres
        rcases List.mem_append.mp hres with hres | hres
        · obtain ⟨docId, n, hname, hn, hrank⟩ := hranks res hres
          exact exact_of_rankOf List.mem_cons_self hname hn hrank
        · obtain ⟨y, hy, hrest⟩ := hexact res hres
          exact ⟨y, List.mem_cons_of_mem x hy, hrest⟩

theorem queryIndex_ends (x : IndexedFile) (word : Bytes) (query : List Bytes) :
    (SumsFit x.mi.stored (word :: query) ∧
      ∃ out, Returns x.file.image (queryIndex x.dtr x.itr word query) out) ∨
    (¬SumsFit x.mi.stored (word :: query) ∧ Overflows x.file.image (queryIndex x.dtr x.itr word query)) := by
  apply queryIndex_spec
  · intro w _
    exact x.findsWordPostings w
  · intro wp docId p hstored hp
    obtain ⟨name, _, hlook⟩ := x.hdocs hstored hp
    exact ⟨name, hlook⟩

theorem queryIndices_overflows {readers : List IndexReaders} (hserves : Serves readers indices)
    (hover : ∃ x ∈ indices, ¬SumsFit x.mi.stored (word :: query)) :
    queryIndices word query readers = .error .signedOverflow := by
  rcases queryIndices_ends hserves fun x _ => queryIndex_ends x word query with ⟨hfit, _⟩ | ⟨_, hrun⟩
  · obtain ⟨x, hx, hnot⟩ := hover
    exact absurd (hfit x hx) hnot
  · exact hrun

/-- A query of the index files has results, or a sum of ranks overflows. -/
theorem processQuery_ends (sorter : Sorter QueryResult.less) {qp : QueryProcessor}
    (hserves : Serves qp.readers indices) (hquery : query ≠ []) :
    ((∀ x ∈ indices, SumsFit x.mi.stored query) ∧
      ∃ result qp', processQuery sorter qp query = .ok (result, qp') ∧ Serves qp'.readers indices) ∨
    ((∃ x ∈ indices, ¬SumsFit x.mi.stored query) ∧ ∃ e, processQuery sorter qp query = .error e) := by
  obtain ⟨word, query, rfl⟩ := List.exists_cons_of_ne_nil hquery
  by_cases hfit : ∀ x ∈ indices, SumsFit x.mi.stored (word :: query)
  · obtain ⟨results, live, readers', hrun, hserves', _⟩ := queryIndices_ranks hserves hfit
    refine .inl ⟨hfit, sorter.sort results, ⟨readers', qp.live + live⟩, ?_, hserves'⟩
    rw [processQuery, hrun]
    rfl
  · simp only [not_forall, exists_prop] at hfit
    refine .inr ⟨hfit, .signedOverflow, ?_⟩
    rw [processQuery, queryIndices_overflows hserves hfit]
    rfl

/-- The results of a search in memory: the sums for the query's words, in
descending order. -/
structure MemRanks (x : IndexedFile) (query : List Bytes) (rs : List SearchResult) : Prop where
  exact : ∀ sr ∈ rs, sr.rank = rankSum x.adds query sr.docId
  positive : x.Filled → ∀ sr ∈ rs, 0 < sr.rank
  sorted : rs.Pairwise fun sr₁ sr₂ => sr₂.rank ≤ sr₁.rank

/-- Every query of the files comes to an end with exact ranks, in descending
order. -/
structure FileRanks (sorter : Sorter QueryResult.less) (indices : List IndexedFile) (query : List Bytes) : Prop where
  opens : ∀ validate, ∃ qp, new (indices.map IndexedFile.file) validate = .ok qp ∧ Serves qp.readers indices
  ranks : ∀ qp : QueryProcessor, Serves qp.readers indices →
    ∃ results qp', processQuery sorter qp query = .ok (results, qp') ∧ Serves qp'.readers indices ∧
      (∀ res ∈ results, Exact indices query res) ∧ results.Pairwise fun res₁ res₂ => res₂.rank ≤ res₁.rank

/-- So do the queries of the files and the searches in memory. -/
structure RanksExact (sorter : Sorter QueryResult.less) (indices : List IndexedFile) (query : List Bytes) : Prop where
  files : FileRanks sorter indices query
  memory : ∀ x ∈ indices, ∃ found, x.mi.search query = .ok found ∧ ∀ l ∈ found, MemRanks x query l.payloads

/-- The same with indices in memory that are built and searched on the lists
of LinkedList.c. -/
structure DanglingRanksExact (sorter : Sorter QueryResult.less) (indices : List IndexedFile) (query : List Bytes) :
    Prop where
  files : FileRanks sorter indices query
  memory : ∀ x ∈ indices, ∃ index found, DanglingMemIndex.build x.adds = .ok index ∧
    index.search query = .ok found ∧ ∀ l ∈ found, ∃ rs, l.elements = .ok rs ∧ MemRanks x query rs

theorem fileRanks_iff (sorter : Sorter QueryResult.less) (hindices : indices ≠ []) :
    FileRanks sorter indices (word :: query) ↔
      ∀ x ∈ indices, ∀ q, q <+: word :: query → ∀ docId, ContainsAll x.adds q docId →
        rankSum x.adds q docId ≤ INT_MAX := by
  have hsums (x : IndexedFile) : SumsFit x.mi.stored (word :: query) ↔ _ := sumsFit_stored x.indexes x.wordBytes
  constructor
  · rintro ⟨hopens, hranks⟩ x hx
    rw [← hsums]
    by_contra hover
    obtain ⟨qp, _, hserves⟩ := hopens false
    obtain ⟨results, qp', hrun, _⟩ := hranks qp hserves
    rw [processQuery, queryIndices_overflows hserves ⟨x, hx, hover⟩, Run.error_bind] at hrun
    cases hrun
  · intro hfit
    refine ⟨fun validate => new_serves validate hindices, fun qp hserves => ?_⟩
    obtain ⟨results, live, readers', hrun, hserves', hexact⟩ :=
      queryIndices_ranks hserves fun x hx => (hsums x).mpr (hfit x hx)
    refine ⟨sorter.sort results, ⟨readers', qp.live + live⟩, ?_, hserves', ?_, ?_⟩
    · rw [processQuery, hrun]
      rfl
    · intro res hres
      exact hexact res ((sorter.perm results).mem_iff.mp hres)
    · refine (sorter.sorted strictWeak_less results).imp ?_
      intro res₁ res₂ hless
      simp only [QueryResult.less, decide_eq_false_iff_not] at hless
      omega

/-- A search in memory is exact when every sum on the way fits and no other
word's positions are counted. -/
theorem memRanks_iff (x : IndexedFile) :
    (∃ found, x.mi.search (word :: query) = .ok found ∧ ∀ l ∈ found, MemRanks x (word :: query) l.payloads) ↔
      (∀ q, q <+: word :: query → ∀ docId, ∀ r ∈ x.mi.queryRank q docId, r ≤ INT_MAX) ∧
        OwnWords x.adds (word :: query) := by
  rw [ownWords_iff x.indexes]
  constructor
  · rintro ⟨found, hsearch, hranks⟩
    have hfit := search_fits (x.queryRank_one word) hsearch
    obtain ⟨res, hres, hspec⟩ := search_spec x.mi word query hfit
    obtain rfl : res = found := Except.ok.inj (hres.symm.trans hsearch)
    refine ⟨hfit, fun docId r hr => ?_⟩
    cases res with
    | none =>
        rw [hspec docId] at hr
        cases hr
    | some l => exact (hranks l rfl).exact ⟨docId, r⟩ ((hspec.1.mem _).mpr hr)
  · rintro ⟨hfit, hown⟩
    obtain ⟨found, hsearch, hspec⟩ := search_spec x.mi word query hfit
    refine ⟨found, hsearch, ?_⟩
    rintro l rfl
    exact {
      exact := fun sr hsr => hown _ _ ((hspec.1.mem sr).mp hsr)
      positive := fun hfilled sr hsr => IndexedFile.queryRank_pos hfilled ((hspec.1.mem sr).mp hsr)
      sorted := hspec.1.sorted }

theorem danglingRanks_iff (x : IndexedFile) :
    (∃ index found, DanglingMemIndex.build x.adds = .ok index ∧ index.search (word :: query) = .ok found ∧
        ∀ l ∈ found, ∃ rs, l.elements = .ok rs ∧ MemRanks x (word :: query) rs) ↔
      (DanglingMemIndex.bucketOf word :: x.adds.map fun a => DanglingMemIndex.bucketOf a.word).Nodup := by
  rw [← DanglingMemIndex.build_search_iff x.adds word query]
  constructor
  · rintro ⟨index, found, hbuild, hsearch, _⟩
    exact ⟨index, found, hbuild, hsearch⟩
  · rintro ⟨index, found, hbuild, hsearch⟩
    refine ⟨index, found, hbuild, hsearch, ?_⟩
    rw [DanglingMemIndex.search_finds_nothing hbuild hsearch]
    exact fun l hl => nomatch hl

/-- On the lists of LinkedList.c an index is built and searched only while
every word, and the first one of the query, meets an empty chain. Without the
freed nodes the ranks are exact while the sums fit and no hash is shared. -/
theorem ranks_exact_iff (sorter : Sorter QueryResult.less) (hindices : indices ≠ []) (word : Bytes)
    (query : List Bytes) :
    (DanglingRanksExact sorter indices (word :: query) ↔
      (∀ x ∈ indices, ∀ q, q <+: word :: query → ∀ docId, ContainsAll x.adds q docId →
        rankSum x.adds q docId ≤ INT_MAX) ∧
      ∀ x ∈ indices,
        (DanglingMemIndex.bucketOf word :: x.adds.map fun a => DanglingMemIndex.bucketOf a.word).Nodup) ∧
    (RanksExact sorter indices (word :: query) ↔
      ∀ x ∈ indices, (∀ q, q <+: word :: query → ∀ docId, ∀ r ∈ x.mi.queryRank q docId, r ≤ INT_MAX) ∧
        OwnWords x.adds (word :: query)) := by
  constructor
  · rw [← fileRanks_iff sorter hindices]
    constructor
    · rintro ⟨hfiles, hmemory⟩
      exact ⟨hfiles, fun x hx => (danglingRanks_iff x).mp (hmemory x hx)⟩
    · rintro ⟨hfiles, hchains⟩
      exact ⟨hfiles, fun x hx => (danglingRanks_iff x).mpr (hchains x hx)⟩
  · constructor
    · rintro ⟨_, hmemory⟩ x hx
      exact (memRanks_iff x).mp (hmemory x hx)
    · intro h
      refine ⟨(fileRanks_iff sorter hindices).mpr fun x hx => ?_, fun x hx => (memRanks_iff x).mpr (h x hx)⟩
      rw [← sumsFit_stored x.indexes x.wordBytes]
      exact fun q hq docId r hr => (h x hx).1 q hq docId r (IndexedFile.queryRank_of_rankOf hr)

/-- A few words of the small index have small sums. -/
theorem small_sums_fit {x : IndexedFile} (hadds : x.adds = smallAdds) {query : List Bytes}
    (hquery : ∀ w ∈ query, w = ascii ['a']) (hlen : query.length ≤ 2) :
    ∀ q, q <+: query → ∀ docId, ∀ r ∈ x.mi.queryRank q docId, r ≤ INT_MAX := by
  intro q hq docId r hr
  have hfree : CollisionFree x.adds q := by
    intro w hw
    rw [hadds]
    obtain rfl := hquery w (hq.mem hw)
    decide +kernel
  obtain ⟨_, rfl⟩ := (queryRank_eq_some x.indexes hfree).mp hr
  have hsum := rankSum_le smallAdds (k := 2) (by decide) q docId
  have hprefix := hq.length_le
  rw [hadds]
  unfold INT_MAX
  omega

/-- One document with 1024 positions of its word. -/
def repeatedWord : Posting := ⟨ascii ['a'], 1, zeroPostings 1024⟩

theorem indexedFile_repeated : ∃ x : IndexedFile, x.adds = [repeatedWord] := by
  obtain ⟨x, _, hadds⟩ := exists_indexedFile (show ∀ name ∈ [ascii ['d']], name ≠ [] ∧ name.length ≤ 32767 by decide)
    (show ∀ a ∈ [repeatedWord], a.word.length ≤ 32767 by decide) (by decide +kernel)
  exact ⟨x, hadds⟩

theorem ranks_exact_small :
    (∃ x : IndexedFile, x.adds = [repeatedWord] ∧ DanglingRanksExact (mergeSorter _) [x] [ascii ['b']]) ∧
    ∃ x : IndexedFile, x.names = smallNames ∧ x.adds = smallAdds ∧
      RanksExact (mergeSorter _) [x, x] [ascii ['a'], ascii ['a']] := by
  constructor
  · obtain ⟨x, hadds⟩ := indexedFile_repeated
    refine ⟨x, hadds, (ranks_exact_iff (mergeSorter _) (by simp) (ascii ['b']) []).1.mpr ⟨?_, ?_⟩⟩
    · intro y hy q hq docId _
      obtain rfl : y = x := by simpa using hy
      have hsum := rankSum_le y.adds (k := 1024) (by rw [hadds]; decide +kernel) q docId
      have hprefix := hq.length_le
      rw [List.length_singleton] at hprefix
      unfold INT_MAX
      omega
    · intro y hy
      obtain rfl : y = x := by simpa using hy
      rw [hadds]
      decide +kernel
  · obtain ⟨x, hnames, hadds⟩ := indexedFile_small
    refine ⟨x, hnames, hadds, (ranks_exact_iff (mergeSorter _) (by simp) (ascii ['a']) [ascii ['a']]).2.mpr ?_⟩
    intro y hy
    obtain rfl : y = x := by simpa using hy
    refine ⟨small_sums_fit hadds (by simp) (by simp), ?_⟩
    intro docId _ w hw b hb hhash _
    obtain rfl : w = ascii ['a'] := by simpa using hw
    have happart : ∀ b ∈ smallAdds, hashString b.word = hashString (ascii ['a']) → b.word = ascii ['a'] := by
      decide +kernel
    exact .inl (happart b (hadds ▸ hb) hhash)

/-- The word repeated 2^21 times has a rank of 2^31. -/
theorem ranks_not_exact : ¬∀ (sorter : Sorter QueryResult.less) (indices : List IndexedFile) (query : List Bytes),
    indices ≠ [] → query ≠ [] → FileRanks sorter indices query := by
  intro h
  obtain ⟨x, hadds⟩ := indexedFile_repeated
  have hranks := h (mergeSorter _) [x] (ascii ['a'] :: List.replicate 2097151 (ascii ['a'])) (List.cons_ne_nil _ _)
    (List.cons_ne_nil _ _)
  rw [fileRanks_iff (mergeSorter _) (List.cons_ne_nil _ _), ← List.replicate_succ] at hranks
  have hcontains : ContainsAll x.adds (List.replicate (2097151 + 1) (ascii ['a'])) 1 := by
    intro w hw
    rw [List.eq_of_mem_replicate hw, hadds]
    exact ⟨repeatedWord, List.mem_singleton.mpr rfl, rfl, rfl⟩
  have hle := hranks x (List.mem_singleton.mpr rfl) _ List.prefix_rfl 1 hcontains
  have hcount : positionCount x.adds (ascii ['a']) 1 = 1024 := by
    have hfound : [repeatedWord].find? (fun a => a.word = ascii ['a'] ∧ a.docId = 1) = some repeatedWord :=
      List.find?_cons_of_pos (by simp [repeatedWord])
    rw [positionCount, hadds, hfound, Option.map_some, Option.getD_some]
    exact numElements_zeroPostings 1024
  rw [rankSum, List.map_replicate, hcount, List.sum_replicate, Nat.nsmul_eq_mul] at hle
  exact absurd hle (by decide)

end QueryProcessor

end SearchEngine
