import SearchEngine.IndexRoundTrip
import SearchEngine.MemSearch
import SearchEngine.QueryProcessor

/-! A query of index files has the results of a search in the indices that
they were written from. -/

namespace SearchEngine.QueryProcessor

open FileProgram HashTableReader MemIndex OpenFile Program

def header (sr : SearchResult) : DocIDElementHeader := ⟨sr.docId, sr.rank⟩

theorem map_headerOf (postings : HashTable Postings) :
    postings.pairs.map DocIDTableReader.headerOf = (firstResults postings).map header := by
  rw [firstResults, List.map_map]
  rfl

theorem mergeHeader_eq (kvs : List (HTKeyValue Postings)) (sr : SearchResult)
    (hfit : ∀ kv ∈ kvs.find? fun kv => kv.key = sr.docId, sr.rank + kv.value.numElements ≤ INT_MAX) :
    mergeHeader (header sr) (kvs.map DocIDTableReader.headerOf) =
      .ok ((kvs.find? fun kv => kv.key = sr.docId).map fun kv =>
        header ⟨sr.docId, sr.rank + kv.value.numElements⟩) := by
  induction kvs with
  | nil => rfl
  | cons kv kvs ih =>
      by_cases hkey : kv.key = sr.docId
      · have hfound : ((kv :: kvs).find? fun kv => kv.key = sr.docId) = some kv := by simp [hkey]
        have hmax : INT_MAX = 2147483647 := rfl
        have hle := hfit kv (by rw [hfound]; rfl)
        have hsum : intSum (header sr).numPositions (DocIDTableReader.headerOf kv).numPositions =
            .ok ((sr.rank : Int) + kv.value.numElements) := by
          apply intSum_eq
          · exact Int.add_nonneg (Int.natCast_nonneg _) (Int.natCast_nonneg _)
          · change (sr.rank : Int) + kv.value.numElements < 2 ^ 31
            omega
        have hsame : (header sr).docId = (DocIDTableReader.headerOf kv).docId := hkey.symm
        rw [List.map_cons, mergeHeader, if_pos hsame, hsum, hfound]
        rfl
      · have hskip : ((kv :: kvs).find? fun kv => kv.key = sr.docId) = kvs.find? fun kv => kv.key = sr.docId := by
          simp [hkey]
        have hother : (header sr).docId ≠ (DocIDTableReader.headerOf kv).docId := Ne.symm hkey
        rw [hskip] at hfit
        rw [List.map_cons, mergeHeader, if_neg hother, hskip]
        exact ih hfit

/-- MergeResult keeps and adds up what the loop over the results in memory
does. -/
theorem mergeResult_eq (postings : HashTable Postings) (rs : List SearchResult)
    (hfit : ∀ sr ∈ rs.filterMap (refineResult postings), sr.rank ≤ INT_MAX) :
    mergeResult (rs.map header) (postings.pairs.map DocIDTableReader.headerOf) =
      .ok ((rs.filterMap (refineResult postings)).map header) := by
  induction rs with
  | nil => rfl
  | cons sr rs ih =>
      have hrest := ih fun sr' h => hfit sr' (by
        rw [List.filterMap_cons]
        split
        · exact h
        · exact List.mem_cons_of_mem _ h)
      have hone := mergeHeader_eq postings.pairs sr
      rw [HashTable.find_pairs] at hone
      rw [List.map_cons, mergeResult]
      cases hl : postings.lookup sr.docId with
      | none =>
          have hdrop : refineResult postings sr = none := by simp [refineResult, hl]
          rw [hl] at hone
          rw [hone (by simp), hrest, List.filterMap_cons_none hdrop]
          rfl
      | some p =>
          have hkeep : refineResult postings sr = some ⟨sr.docId, sr.rank + p.numElements⟩ := by
            simp [refineResult, hl]
          have hle := hfit ⟨sr.docId, sr.rank + p.numElements⟩ (by
            rw [List.filterMap_cons_some hkeep]
            exact List.mem_cons_self)
          rw [hl] at hone
          rw [hone (by simpa using hle), hrest, List.filterMap_cons_some hkeep]
          rfl

/-- The reader finds the docID table of a word, if the index has the word. -/
def FindsWord (image : FileImage) (mi : MemIndex) (itr : HashTableReader) (word : Bytes) : Prop :=
  ∃ res, Returns image (IndexTableReader.lookupWord itr word) res ∧
    match res with
    | none => mi.lookup (hashString word) = none
    | some didtr => ∃ wp, mi.lookup (hashString word) = some wp ∧ IndexTableReader.ReadsPostings image wp didtr

section

variable {image : FileImage} {mi : MemIndex} {dt : DocTable} {dtr itr : HashTableReader} {word : Bytes}

theorem getDocIDList_reads {wp : WordPostings} {didtr : HashTableReader}
    (h : IndexTableReader.ReadsPostings image wp didtr) :
    Returns image (DocIDTableReader.getDocIDList didtr) ((firstResults wp.postings).map header) := by
  obtain ⟨off, rfl, ht⟩ := h
  rw [← map_headerOf]
  exact DocIDTableReader.getDocIDList_returns ht

/-- The loop over the further words ends with what searchRest leaves of the
results, or knows that nothing is left. -/
theorem intersectWords_returns (query : List Bytes) (hwords : ∀ word ∈ query, FindsWord image mi itr word)
    (rs : List SearchResult) (hfit : RanksFit mi query rs) :
    ∃ candidates, Returns image (intersectWords itr query (rs.map header)) candidates ∧
      if candidates.isValid then candidates.idList = (rs.filterMap (refineBy mi query)).map header
      else rs.filterMap (refineBy mi query) = [] := by
  induction query generalizing rs with
  | nil => exact ⟨⟨true, rs.map header, 0⟩, .pure image _, by simp [refineBy_nil]⟩
  | cons word query ih =>
      obtain ⟨res, hres, hfound⟩ := hwords word (by simp)
      rw [filterMap_refineBy_cons]
      cases res with
      | none =>
          have hnone : refineBy mi [word] = fun _ => none := by
            funext sr
            simp [refineBy, queryRank, postingsAt, hfound]
          refine ⟨⟨false, rs.map header, 0⟩, hres.bind (.pure image _), ?_⟩
          simp [hnone]
      | some didtr =>
          obtain ⟨wp, hl, hreads⟩ := hfound
          have hsingle := refineBy_single hl
          have hword := hfit [word] (List.cons_prefix_cons.mpr ⟨rfl, List.nil_prefix⟩)
          have hmerge := mergeResult_eq wp.postings rs (by rwa [← hsingle])
          rw [map_headerOf, ← hsingle] at hmerge
          have hlist := getDocIDList_reads hreads
          have hrun : Returns image (ofRun (mergeResult (rs.map header) ((firstResults wp.postings).map header)))
              ((rs.filterMap (refineBy mi [word])).map header) := by
            rw [hmerge]
            exact .pure image _
          by_cases hempty : ((rs.filterMap (refineBy mi [word])).map header).length = 0
          · refine ⟨⟨true, (rs.filterMap (refineBy mi [word])).map header, 1⟩, ?_, ?_⟩
            · refine hres.bind (hlist.bind (hrun.bind ?_))
              rw [if_pos hempty]
              exact .pure image _
            · rw [List.length_map, List.length_eq_zero_iff] at hempty
              simp [hempty]
          · obtain ⟨candidates, hrest, hspec⟩ := ih (fun w hw => hwords w (by simp [hw]))
              (rs.filterMap (refineBy mi [word])) hfit.tail
            refine ⟨candidates, ?_, hspec⟩
            refine hres.bind (hlist.bind (hrun.bind ?_))
            rw [if_neg hempty]
            exact hrest

def named (dt : DocTable) (sr : SearchResult) : QueryResult := ⟨(dt.idToName.lookup sr.docId).getD [], sr.rank⟩

theorem documentResults_returns (hdocs : ∀ docId, Returns image (DocTableReader.lookupDocID dtr docId)
      (dt.idToName.lookup docId)) (rs : List SearchResult)
    (hreg : ∀ sr ∈ rs, (dt.idToName.lookup sr.docId).isSome) :
    Returns image (documentResults dtr (rs.map header)) (rs.map (named dt)) := by
  induction rs with
  | nil => exact .pure image []
  | cons sr rs ih =>
      obtain ⟨name, hname⟩ := Option.isSome_iff_exists.mp (hreg sr (by simp))
      have hlook := hdocs sr.docId
      have hrest := ih fun sr' h => hreg sr' (by simp [h])
      have hnamed : named dt sr = ⟨name, sr.rank⟩ := by simp [named, hname]
      rw [hname] at hlook
      rw [List.map_cons, List.map_cons, hnamed]
      exact hlook.bind (hrest.bind (.pure image _))

def unsortedResults (mi : MemIndex) (word : Bytes) (query : List Bytes) : List SearchResult :=
  match mi.lookup (hashString word) with
  | none => []
  | some wp => (firstResults wp.postings).filterMap (refineBy mi query)

theorem mem_unsortedResults {query : List Bytes} {sr : SearchResult} :
    sr ∈ unsortedResults mi word query ↔ mi.queryRank (word :: query) sr.docId = some sr.rank := by
  rw [unsortedResults]
  split
  · next hl => simp [queryRank, postingsAt, hl]
  · next wp hl => exact mem_refined hl sr

theorem nodup_unsortedResults (mi : MemIndex) (word : Bytes) (query : List Bytes) :
    (unsortedResults mi word query).Nodup := by
  rw [unsortedResults]
  split
  · exact List.nodup_nil
  · next wp hl =>
    refine List.Nodup.of_map SearchResult.docId (nodup_filterMap_refineBy ?_)
    rw [firstResults, List.map_map]
    exact wp.postings.nodup_keys

/-- One index file: the results of the search in memory, with the names that
the file has for them. -/
theorem queryIndex_returns {query : List Bytes} (hwords : ∀ w ∈ word :: query, FindsWord image mi itr w)
    (hdocs : ∀ docId, Returns image (DocTableReader.lookupDocID dtr docId) (dt.idToName.lookup docId))
    (hfit : ∀ q, q <+: word :: query → ∀ docId, ∀ r ∈ mi.queryRank q docId, r ≤ INT_MAX)
    (hreg : ∀ sr ∈ unsortedResults mi word query, (dt.idToName.lookup sr.docId).isSome) :
    ∃ live, Returns image (queryIndex dtr itr word query)
      ((unsortedResults mi word query).map (named dt), live) := by
  obtain ⟨res, hres, hfound⟩ := hwords word (by simp)
  cases res with
  | none =>
      refine ⟨0, hres.bind ?_⟩
      rw [unsortedResults, hfound]
      exact .pure image _
  | some didtr =>
      obtain ⟨wp, hl, hreads⟩ := hfound
      obtain ⟨candidates, hrest, hspec⟩ := intersectWords_returns query (fun w hw => hwords w (by simp [hw]))
        (firstResults wp.postings) (ranksFit_firstResults hl hfit)
      have hall : unsortedResults mi word query = (firstResults wp.postings).filterMap (refineBy mi query) := by
        rw [unsortedResults, hl]
      rw [← hall] at hspec
      refine ⟨candidates.live, hres.bind ((getDocIDList_reads hreads).bind (hrest.bind ?_))⟩
      split at hspec
      · next hvalid =>
        rw [if_pos hvalid, hspec]
        exact (documentResults_returns hdocs _ hreg).bind (.pure image _)
      · next hvalid =>
        rw [if_neg hvalid, hspec]
        exact .pure image _

end

/-- An index file that was written from two structures, and the calls that
built them. -/
structure IndexedFile where
  names : List Bytes
  adds : List Posting
  dt : DocTable
  mi : MemIndex
  file : OpenFile
  docTable : DocTable.build names = .ok dt
  memIndex : MemIndex.build adds = .ok mi
  nameBytes : ∀ name ∈ names, name ≠ [] ∧ name.length ≤ 32767
  wordBytes : ∀ a ∈ adds, a.word.length ≤ 32767
  fits : indexSize mi dt < 2 ^ 31
  registered : ∀ a ∈ adds, ∃ name, dt.getDocName a.docId = .ok (some name)
  written : ∃ f size, (WriteIndex.writeIndex mi dt).run handle f = .ok (size, file)

namespace IndexedFile

variable (x : IndexedFile)

theorem representable : WriteIndex.Representable x.mi x.dt :=
  representable_of_build x.docTable x.memIndex x.nameBytes x.wordBytes

theorem indexFile : IndexFile x.mi x.dt x.file.image ∧ x.file.linked = true := by
  obtain ⟨f, size, hwritten⟩ := x.written
  obtain ⟨checksum, pos, hsum, hrun⟩ := WriteIndex.writeIndex_writes x.representable x.fits f
  rw [hwritten] at hrun
  obtain ⟨_, hfile⟩ := Prod.mk.inj (Except.ok.inj hrun)
  rw [hfile]
  exact ⟨indexFile_patch x.fits hsum, rfl⟩

def dtr : HashTableReader := readerAt 16 x.dt.idToName

def itr : HashTableReader := readerAt (16 + docFormat.tableSize x.dt.idToName) x.mi

variable {x} {word : Bytes} {query : List Bytes}

theorem findsWord (hfree : CollisionFree x.adds query) (hword : word ∈ query) :
    FindsWord x.file.image x.mi x.itr word := by
  have hidx := MemIndex.build_indexes x.memIndex
  have hsame : ∀ wp, x.mi.lookup (hashString word) = some wp → wp.word = word := by
    intro wp hl
    obtain ⟨a, ha, haword, hhash⟩ := hidx.words _ _ hl
    rw [← haword, hfree word hword a ha hhash.symm]
  obtain ⟨res, hres, hspec⟩ := IndexTableReader.lookupWord_returns x.indexFile.1.words x.representable.words
    (fun kv hkv => hidx.hash_word hkv) word
  refine ⟨res, hres, ?_⟩
  cases res with
  | none =>
      apply Option.eq_none_iff_forall_ne_some.mpr
      intro wp hl
      exact hspec wp hl (hsame wp hl)
  | some didtr =>
      obtain ⟨wp, hl, _, hreads⟩ := hspec
      exact ⟨wp, hl, hreads⟩

theorem registered_result {sr : SearchResult} (h : sr ∈ unsortedResults x.mi word query) :
    ∃ name, x.dt.getDocName sr.docId = .ok (some name) := by
  rw [mem_unsortedResults, queryRank, Option.bind_eq_some_iff] at h
  obtain ⟨p, hp, _⟩ := h
  obtain ⟨a, ha, _, hdoc, _⟩ := ((MemIndex.build_indexes x.memIndex).entries _ _ _).mp hp
  rw [← hdoc]
  exact x.registered a ha

end IndexedFile

def nameResults (dt : DocTable) : List SearchResult → Run (List QueryResult)
  | [] => return []
  | sr :: rs => do
      match ← dt.getDocName sr.docId with
      | none => .error .badAccess
      | some name =>
          let results ← nameResults dt rs
          return ⟨name, sr.rank⟩ :: results

/-- The results of MemIndex_Search, NULL counting as empty. -/
def searchNamed (dt : DocTable) (mi : MemIndex) (query : List Bytes) : Run (List QueryResult) := do
  match ← mi.search query with
  | none => return []
  | some l => nameResults dt l.payloads

def searchAll (query : List Bytes) : List IndexedFile → Run (List QueryResult)
  | [] => return []
  | x :: indices => do
      let results ← searchNamed x.dt x.mi query
      let rest ← searchAll query indices
      return results ++ rest

theorem nameResults_eq {dt : DocTable} {rs : List SearchResult}
    (hreg : ∀ sr ∈ rs, ∃ name, dt.getDocName sr.docId = .ok (some name)) :
    nameResults dt rs = .ok (rs.map (named dt)) := by
  induction rs with
  | nil => rfl
  | cons sr rs ih =>
      obtain ⟨name, hname⟩ := hreg sr (by simp)
      have hl := DocTable.lookup_of_getDocName hname
      simp [nameResults, hname, ih fun sr' h => hreg sr' (by simp [h]), named, hl]

/-- The search in memory has the results that a query of the file collects. -/
theorem searchNamed_perm {x : IndexedFile} {word : Bytes} {query : List Bytes}
    (hfit : ∀ q, q <+: word :: query → ∀ docId, ∀ r ∈ x.mi.queryRank q docId, r ≤ INT_MAX) :
    ∃ results, searchNamed x.dt x.mi (word :: query) = .ok results ∧
      results.Perm ((unsortedResults x.mi word query).map (named x.dt)) := by
  obtain ⟨res, hres, hspec⟩ := MemIndex.search_spec x.mi word query hfit
  rw [searchNamed, hres, Run.ok_bind]
  cases res with
  | none =>
      have hempty : unsortedResults x.mi word query = [] := by
        apply List.eq_nil_iff_forall_not_mem.mpr
        intro sr hsr
        rw [mem_unsortedResults, hspec] at hsr
        cases hsr
      exact ⟨[], rfl, by rw [hempty]; rfl⟩
  | some l =>
      have hranked := hspec.1
      have hmem (sr : SearchResult) : sr ∈ l.payloads ↔ sr ∈ unsortedResults x.mi word query := by
        rw [hranked.mem, mem_unsortedResults]
      have hperm := (List.perm_ext_iff_of_nodup (List.Nodup.of_map _ hranked.nodup)
        (nodup_unsortedResults x.mi word query)).mpr hmem
      have hnames : nameResults x.dt l.payloads = .ok (l.payloads.map (named x.dt)) :=
        nameResults_eq fun sr hsr => IndexedFile.registered_result ((hmem sr).mp hsr)
      exact ⟨_, hnames, hperm.map (named x.dt)⟩

def Serves (readers : List IndexReaders) (indices : List IndexedFile) : Prop :=
  List.Forall₂ (fun r x => r.dtr = x.dtr ∧ r.itr = x.itr ∧ r.file.image = x.file.image) readers indices

theorem openIndices_serves (validate : Bool) (indices : List IndexedFile) :
    ∃ readers, openIndices validate (indices.map IndexedFile.file) = .ok readers ∧ Serves readers indices := by
  induction indices with
  | nil => exact ⟨[], rfl, .nil⟩
  | cons x indices ih =>
      obtain ⟨readers, hopen, hserves⟩ := ih
      obtain ⟨hfile, hlinked⟩ := x.indexFile
      obtain ⟨pos, hrun⟩ := FileIndexReader.openTables_run hfile validate x.file.pos
      have hstate : x.file = ⟨x.file.image, x.file.pos, true⟩ := by rw [← hlinked]
      rw [← hstate] at hrun
      refine ⟨⟨x.dtr, x.itr, ⟨x.file.image, pos, true⟩⟩ :: readers, ?_, .cons ⟨rfl, rfl, rfl⟩ hserves⟩
      rw [List.map_cons, openIndices, hrun, Run.ok_bind]
      simp only [hopen, Run.ok_bind]
      rfl

theorem new_serves (validate : Bool) {indices : List IndexedFile} (hindices : indices ≠ []) :
    ∃ qp, new (indices.map IndexedFile.file) validate = .ok qp ∧ Serves qp.readers indices := by
  obtain ⟨readers, hopen, hserves⟩ := openIndices_serves validate indices
  have hne : decide (indices.map IndexedFile.file ≠ []) = true := by simpa using hindices
  refine ⟨⟨readers, 0⟩, ?_, hserves⟩
  rw [new, hne, hopen]
  rfl

/-- The loop over the index files against the searches in memory: the same
results, up to their order. -/
theorem queryIndices_spec {word : Bytes} {query : List Bytes} {indices : List IndexedFile}
    (hfree : ∀ x ∈ indices, CollisionFree x.adds (word :: query))
    (hfit : ∀ x ∈ indices, ∀ q, q <+: word :: query → ∀ docId, ContainsAll x.adds q docId →
      rankSum x.adds q docId ≤ INT_MAX) {readers : List IndexReaders} (hserves : Serves readers indices) :
    ∃ results live readers' expected, queryIndices word query readers = .ok (results, live, readers') ∧
      searchAll (word :: query) indices = .ok expected ∧ results.Perm expected ∧ Serves readers' indices := by
  induction hserves with
  | nil => exact ⟨[], 0, [], [], rfl, rfl, .refl _, .nil⟩
  | @cons r x readers indices hr _ ih =>
      obtain ⟨hdtr, hitr, himage⟩ := hr
      obtain ⟨more, liveMore, readers', rest, hmore, hrest, hperm, hserves'⟩ := ih
        (fun y hy => hfree y (by simp [hy])) (fun y hy => hfit y (by simp [hy]))
      have hranks := queryRank_le (MemIndex.build_indexes x.memIndex) (hfree x (by simp)) (hfit x (by simp))
      have hnames : ∀ sr ∈ unsortedResults x.mi word query, (x.dt.idToName.lookup sr.docId).isSome := by
        intro sr hsr
        obtain ⟨name, hname⟩ := IndexedFile.registered_result hsr
        rw [DocTable.lookup_of_getDocName hname]
        rfl
      have hdocs : ∀ docId, Returns x.file.image (DocTableReader.lookupDocID x.dtr docId)
          (x.dt.idToName.lookup docId) :=
        DocTableReader.lookupDocID_returns x.indexFile.1.docs fun kv hkv => (x.representable.names kv hkv).2
      obtain ⟨live, hquery⟩ := queryIndex_returns (fun w hw => IndexedFile.findsWord (hfree x (by simp)) hw) hdocs
        hranks hnames
      obtain ⟨pos, hrun⟩ := hquery r.file.pos r.file.linked
      rw [← himage] at hrun
      obtain ⟨results, hsearch, hsame⟩ := searchNamed_perm hranks
      refine ⟨(unsortedResults x.mi word query).map (named x.dt) ++ more, live + liveMore,
        { r with file := ⟨r.file.image, pos, r.file.linked⟩ } :: readers', results ++ rest, ?_, ?_, ?_, ?_⟩
      · rw [queryIndices, hdtr, hitr, hrun, Run.ok_bind]
        simp only [hmore, Run.ok_bind]
        rfl
      · rw [searchAll, hsearch, Run.ok_bind, hrest, Run.ok_bind]
        rfl
      · exact hsame.symm.append hperm
      · exact .cons ⟨hdtr, hitr, himage⟩ hserves'

theorem strictWeak_less : StrictWeak QueryResult.less where
  asymm a b h := by
    simp only [QueryResult.less, decide_eq_true_eq, decide_eq_false_iff_not] at h ⊢
    omega
  trans a b c hab hbc := by
    simp only [QueryResult.less, decide_eq_false_iff_not] at hab hbc ⊢
    omega

theorem processQuery_spec (sorter : Sorter QueryResult.less) {indices : List IndexedFile} {query : List Bytes}
    (hquery : query ≠ []) (hfree : ∀ x ∈ indices, CollisionFree x.adds query)
    (hfit : ∀ x ∈ indices, ∀ q, q <+: query → ∀ docId, ContainsAll x.adds q docId →
      rankSum x.adds q docId ≤ INT_MAX) {qp : QueryProcessor} (hserves : Serves qp.readers indices) :
    ∃ results qp' expected, processQuery sorter qp query = .ok (results, qp') ∧ Serves qp'.readers indices ∧
      searchAll query indices = .ok expected ∧ results.Perm expected ∧
      results.Pairwise fun x y => y.rank ≤ x.rank := by
  obtain ⟨word, query, rfl⟩ := List.exists_cons_of_ne_nil hquery
  obtain ⟨results, live, readers', expected, hrun, hexpected, hperm, hserves'⟩ := queryIndices_spec hfree hfit hserves
  refine ⟨sorter.sort results, ⟨readers', qp.live + live⟩, expected, ?_, hserves', hexpected,
    (sorter.perm results).trans hperm, ?_⟩
  · rw [processQuery, hrun]
    rfl
  · refine (sorter.sorted strictWeak_less results).imp ?_
    intro x y hless
    simp only [QueryResult.less, decide_eq_false_iff_not] at hless
    omega

/-- A query of the files and the searches in memory have the same results. -/
theorem processQuery_agrees (sorter : Sorter QueryResult.less) {indices : List IndexedFile} (hindices : indices ≠ [])
    {query : List Bytes} (hquery : query ≠ []) (hfree : ∀ x ∈ indices, CollisionFree x.adds query)
    (hfit : ∀ x ∈ indices, ∀ q, q <+: query → ∀ docId, ContainsAll x.adds q docId →
      rankSum x.adds q docId ≤ INT_MAX) (validate : Bool) :
    ∃ qp results qp' expected, new (indices.map IndexedFile.file) validate = .ok qp ∧
      processQuery sorter qp query = .ok (results, qp') ∧ searchAll query indices = .ok expected ∧
      results.Perm expected ∧ results.Pairwise fun x y => y.rank ≤ x.rank := by
  obtain ⟨qp, hnew, hserves⟩ := new_serves validate hindices
  obtain ⟨results, qp', expected, hrun, _, hrest⟩ := processQuery_spec sorter hquery hfree hfit hserves
  exact ⟨qp, results, qp', expected, hnew, hrun, hrest⟩

theorem exists_indexedFile {names : List Bytes} {adds : List Posting}
    (hnames : ∀ name ∈ names, name ≠ [] ∧ name.length ≤ 32767) (hwords : ∀ a ∈ adds, a.word.length ≤ 32767)
    (hbuild : (do
      let dt ← DocTable.build names
      let mi ← MemIndex.build adds
      return decide (indexSize mi dt < 2 ^ 31) && adds.all fun a => (dt.getDocName a.docId).toOption.join.isSome) =
        .ok true) :
    ∃ x : IndexedFile, x.names = names ∧ x.adds = adds := by
  obtain ⟨dt, hdt, hbuild⟩ := Run.bind_eq_ok.mp hbuild
  obtain ⟨mi, hmi, hbuild⟩ := Run.bind_eq_ok.mp hbuild
  obtain ⟨hfit, hfound⟩ := Bool.and_eq_true_iff.mp (Except.ok.inj hbuild)
  have hfits := of_decide_eq_true hfit
  obtain ⟨checksum, pos, _, hrun⟩ := WriteIndex.writeIndex_writes (representable_of_build hdt hmi hnames hwords) hfits
    ⟨.empty, 0, false⟩
  refine ⟨⟨names, adds, dt, mi, _, hdt, hmi, hnames, hwords, hfits, ?_, _, _, hrun⟩, rfl, rfl⟩
  intro a ha
  obtain ⟨name, hname⟩ := Option.isSome_iff_exists.mp (List.all_eq_true.mp hfound a ha)
  refine ⟨name, ?_⟩
  cases hget : dt.getDocName a.docId with
  | error e =>
      rw [hget] at hname
      cases hname
  | ok found =>
      rw [hget] at hname
      exact congrArg Except.ok hname

theorem indexedFile_small : ∃ x : IndexedFile, x.names = smallNames ∧ x.adds = smallAdds :=
  exists_indexedFile (by decide) (by decide) (by decide +kernel)

theorem processQuery_agrees_small : ∃ x : IndexedFile, x.names = smallNames ∧ x.adds = smallAdds ∧
    ∃ qp results qp' expected, new ([x, x].map IndexedFile.file) true = .ok qp ∧
      processQuery (mergeSorter _) qp [ascii ['a'], ascii ['b']] = .ok (results, qp') ∧
      searchAll [ascii ['a'], ascii ['b']] [x, x] = .ok expected ∧
      results.Perm expected ∧ results.Pairwise fun x y => y.rank ≤ x.rank := by
  obtain ⟨x, hnames, hadds⟩ := indexedFile_small
  refine ⟨x, hnames, hadds, processQuery_agrees (mergeSorter _) (by simp) (by simp) ?_ ?_ true⟩
  · intro y hy
    obtain rfl : y = x := by simpa using hy
    rw [hadds]
    unfold CollisionFree
    decide +kernel
  · intro y hy q hq docId _
    obtain rfl : y = x := by simpa using hy
    have hsum := rankSum_le smallAdds (k := 2) (by decide) q docId
    have hlen := hq.length_le
    simp only [List.length_cons, List.length_nil] at hlen
    rw [hadds]
    unfold INT_MAX
    omega

end SearchEngine.QueryProcessor
