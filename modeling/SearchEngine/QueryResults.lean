import SearchEngine.FileSearchShell
import SearchEngine.Library.Simulation
import Mathlib.Data.List.Dedup

/-! What a query of index files finds, as a function of what was indexed. -/

namespace SearchEngine.QueryProcessor

open FileProgram HashTableReader MemIndex OpenFile Program ReaderOwnership

section

variable {image : FileImage} {find : Bytes → Option WordPostings} {names : DocID → Option Bytes}
  {dtr itr : HashTableReader} {word : Bytes} {words query : List Bytes}

theorem refined_bind (words more : List Bytes) (header : DocIDElementHeader) :
    (refined find words header).bind (refined find (words ++ more)) = refined find (words ++ more) header := by
  rw [refined]
  cases hrank : rankOf find words header.docId with
  | none =>
      have hnone : rankOf find (words ++ more) header.docId = none := by rw [rankOf_append, hrank]; rfl
      rw [refined, hnone]
      rfl
  | some r => rfl

theorem filterMap_refined (words more : List Bytes) (idList : List DocIDElementHeader) :
    (idList.filterMap (refined find words)).filterMap (refined find (words ++ more)) =
      idList.filterMap (refined find (words ++ more)) := by
  rw [List.filterMap_filterMap]
  congr 1
  funext header
  exact refined_bind words more header

theorem filterMap_refined_self {idList : List DocIDElementHeader} (h : Lists find words idList) :
    idList.filterMap (refined find words) = idList := by
  have hsome : ∀ header ∈ idList, refined find words header = some header := by
    intro header hheader
    obtain ⟨r, hr, hnum⟩ := (h header).mp hheader
    rw [refined, hr, Option.map_some, ← hnum]
  rw [List.filterMap_congr hsome, List.filterMap_some]

/-- The loop over the further words leaves the documents that have them all,
if it does not give up at a word that no document has. -/
theorem intersectWords_found (hfind : ∀ w ∈ query, FindsWordPostings image find itr w)
    {idList : List DocIDElementHeader} (hlist : Lists find words idList) (hfit : SumsFitAfter find words query) :
    ∃ candidates, Returns image (intersectWords itr query idList) candidates ∧
      (if candidates.isValid then candidates.idList else []) = idList.filterMap (refined find (words ++ query)) := by
  induction query generalizing words idList with
  | nil =>
      refine ⟨⟨true, idList, 0⟩, .pure image _, ?_⟩
      rw [List.append_nil, filterMap_refined_self hlist]
      rfl
  | cons word query ih =>
      obtain ⟨res, hres, hfound⟩ := hfind word (by simp)
      obtain ⟨hone, hrest⟩ := sumsFitAfter_cons.mp hfit
      have hwords : words ++ word :: query = words ++ [word] ++ query := List.append_cons ..
      rw [hwords, ← filterMap_refined (words ++ [word]) query idList]
      cases res with
      | none =>
          have hnone : ∀ header ∈ idList, refined find (words ++ [word]) header = none := by
            intro header _
            rw [refined, rankOf_append, rankOf_singleton, countOf, hfound]
            cases rankOf find words header.docId <;> rfl
          refine ⟨⟨false, idList, 0⟩, hres.bind (.pure image _), ?_⟩
          rw [List.filterMap_eq_nil_iff.mpr hnone]
          rfl
      | some didtr =>
          obtain ⟨wp, hword, hreads⟩ := hfound
          obtain ⟨idListTmp, htmp, hlistTmp⟩ := getDocIDList_lists hword hreads
          have hsound : ∀ header ∈ idList, ∃ r, rankOf find words header.docId = some r ∧
              header.numPositions = (r : Nat) := fun header hheader => (hlist header).mp hheader
          rcases mergeResult_rank hlistTmp hsound with ⟨_, hmerge⟩ | ⟨⟨header, _, r, hr, hover⟩, _⟩
          · have hrun : Returns image (ofRun (mergeResult idList idListTmp))
                (idList.filterMap (refined find (words ++ [word]))) := by
              rw [hmerge]
              exact .pure image _
            by_cases hempty : (idList.filterMap (refined find (words ++ [word]))).length = 0
            · have hnil := List.length_eq_zero_iff.mp hempty
              rw [hnil] at hrun ⊢
              exact ⟨⟨true, [], 1⟩, hres.bind (htmp.bind (hrun.bind (.pure image _))), rfl⟩
            · obtain ⟨candidates, hcand, hleft⟩ :=
                ih (fun w hw => hfind w (List.mem_cons_of_mem word hw)) hlist.refined hrest
              refine ⟨candidates, hres.bind (htmp.bind (hrun.bind ?_)), hleft⟩
              rw [if_neg hempty]
              exact hcand
          · exact absurd (hone header.docId r hr) (Nat.not_le.mpr hover)

def resultOf (names : DocID → Option Bytes) (header : DocIDElementHeader) : QueryResult :=
  ⟨(names header.docId).getD [], header.numPositions⟩

theorem documentResults_eq {idList : List DocIDElementHeader}
    (hdocs : ∀ header ∈ idList, ∃ name, names header.docId = some name ∧
      Returns image (DocTableReader.lookupDocID dtr header.docId) (some name)) :
    Returns image (documentResults dtr idList) (idList.map (resultOf names)) := by
  induction idList with
  | nil => exact .pure image _
  | cons header idList ih =>
      obtain ⟨name, hname, hlook⟩ := hdocs header (by simp)
      have hrest := ih fun header' hheader => hdocs header' (by simp [hheader])
      have hres : resultOf names header = ⟨name, header.numPositions⟩ := by rw [resultOf, hname]; rfl
      rw [List.map_cons, hres]
      exact hlook.bind (hrest.bind (.pure image _))

theorem nodup_docIds (wp : WordPostings) (words : List Bytes) :
    (((wp.postings.pairs.map DocIDTableReader.headerOf).filterMap (refined find words)).map
      DocIDElementHeader.docId).Nodup := by
  have hsub : ∀ l : List DocIDElementHeader,
      ((l.filterMap (refined find words)).map DocIDElementHeader.docId).Sublist (l.map DocIDElementHeader.docId) := by
    intro l
    induction l with
    | nil => exact .slnil
    | cons header l ih =>
        rw [List.filterMap_cons]
        cases hrefined : refined find words header with
        | none => exact ih.cons _
        | some header' =>
            obtain ⟨r, _, rfl⟩ := Option.map_eq_some_iff.mp hrefined
            exact ih.cons_cons _
  refine (List.Nodup.sublist (hsub _) ?_)
  rw [List.map_map]
  exact wp.postings.nodup_keys

/-- The results of one index file, when no sum overflows: the documents that
have all the words, each once and with its rank. -/
theorem queryIndex_found (names : DocID → Option Bytes)
    (hfind : ∀ w ∈ word :: query, FindsWordPostings image find itr w)
    (hdocs : ∀ wp docId p, find word = some wp → wp.postings.lookup docId = some p →
      ∃ name, names docId = some name ∧ Returns image (DocTableReader.lookupDocID dtr docId) (some name))
    (hfit : SumsFit find (word :: query)) :
    ∃ idList live, Returns image (queryIndex dtr itr word query) (idList.map (resultOf names), live) ∧
      Lists find (word :: query) idList ∧ (idList.map DocIDElementHeader.docId).Nodup := by
  obtain ⟨found, hres, hfound⟩ := hfind word (by simp)
  cases found with
  | none =>
      refine ⟨[], 0, hres.bind (.pure image _), ?_, List.nodup_nil⟩
      intro header
      simp [rankOf, countOf, hfound]
  | some didtr =>
      obtain ⟨wp, hword, hreads⟩ := hfound
      have hids : Returns image (DocIDTableReader.getDocIDList didtr)
          (wp.postings.pairs.map DocIDTableReader.headerOf) := by
        obtain ⟨off, rfl, ht⟩ := hreads
        exact DocIDTableReader.getDocIDList_returns ht
      have hlist : Lists find [word] (wp.postings.pairs.map DocIDTableReader.headerOf) := lists_postings hword
      obtain ⟨candidates, hcand, hleft⟩ := intersectWords_found (fun w hw => hfind w (List.mem_cons_of_mem word hw))
        hlist ((sumsFit_cons (countOf_le hword hreads)).mp hfit)
      have hall : Lists find (word :: query)
          ((wp.postings.pairs.map DocIDTableReader.headerOf).filterMap (refined find ([word] ++ query))) :=
        hlist.refined
      refine ⟨_, candidates.live, hres.bind (hids.bind (hcand.bind ?_)), hall, nodup_docIds wp _⟩
      have hnames : ∀ header ∈
          (wp.postings.pairs.map DocIDTableReader.headerOf).filterMap (refined find ([word] ++ query)),
          ∃ name, names header.docId = some name ∧
            Returns image (DocTableReader.lookupDocID dtr header.docId) (some name) := by
        intro header hheader
        obtain ⟨r, hr, _⟩ := (hall header).mp hheader
        obtain ⟨n, hn⟩ := rankOf_prefix (show rankOf find ([word] ++ query) header.docId = some r from hr)
        rw [rankOf_singleton, countOf, hword, Option.bind_some, Option.map_eq_some_iff] at hn
        obtain ⟨p, hp, _⟩ := hn
        exact hdocs wp header.docId p hword hp
      rw [← hleft] at hnames ⊢
      cases hvalid : candidates.isValid with
      | true =>
          rw [hvalid] at hnames
          exact (documentResults_eq hnames).bind (.pure image _)
      | false => exact .pure image _

end

namespace IndexedFile

variable (x : IndexedFile)

/-- The documents for which something was added for each of the words. -/
def matching (query : List Bytes) : List DocID :=
  (x.adds.map Posting.docId).dedup.filter fun docId => decide (∀ w ∈ query, ∃ a ∈ x.adds, a.word = w ∧ a.docId = docId)

def result (query : List Bytes) (docId : DocID) : QueryResult :=
  ⟨(x.dt.idToName.lookup docId).getD [], (rankSum x.adds query docId : Nat)⟩

variable {x}

theorem mem_matching {query : List Bytes} (hquery : query ≠ []) {docId : DocID} :
    docId ∈ x.matching query ↔ ContainsAll x.adds query docId := by
  simp only [matching, List.mem_filter, List.mem_dedup, decide_eq_true_eq, List.mem_map]
  constructor
  · exact fun h => h.2
  · intro h
    obtain ⟨word, query, rfl⟩ := List.exists_cons_of_ne_nil hquery
    obtain ⟨a, ha, _, hdoc⟩ := h word (by simp)
    exact ⟨⟨a, ha, hdoc⟩, h⟩

end IndexedFile

theorem IndexedFile.nodup_matching (x : IndexedFile) (query : List Bytes) : (x.matching query).Nodup :=
  (List.nodup_dedup _).filter _

/-- The results of a query, up to their order. -/
def answer (indices : List IndexedFile) (query : List Bytes) : List QueryResult :=
  indices.flatMap fun x => (x.matching query).map (x.result query)

variable {indices : List IndexedFile} {word : Bytes} {query : List Bytes} {sorter : Sorter QueryResult.less}

theorem results_perm {x : IndexedFile} {idList : List DocIDElementHeader}
    (hlist : Lists x.mi.stored (word :: query) idList) (hnodup : (idList.map DocIDElementHeader.docId).Nodup) :
    (idList.map (resultOf x.dt.idToName.lookup)).Perm
      ((x.matching (word :: query)).map (x.result (word :: query))) := by
  have hdocs : (idList.map DocIDElementHeader.docId).Perm (x.matching (word :: query)) := by
    apply (List.perm_ext_iff_of_nodup hnodup (x.nodup_matching _)).mpr
    intro docId
    rw [IndexedFile.mem_matching (List.cons_ne_nil word query), List.mem_map]
    constructor
    · rintro ⟨header, hheader, rfl⟩
      obtain ⟨r, hr, _⟩ := (hlist header).mp hheader
      exact ((rankOf_stored x.indexes x.wordBytes).mp hr).1
    · intro hall
      exact ⟨⟨docId, (rankSum x.adds (word :: query) docId : Nat)⟩,
        (hlist _).mpr ⟨_, (rankOf_stored x.indexes x.wordBytes).mpr ⟨hall, rfl⟩, rfl⟩, rfl⟩
  have hsame : idList.map (resultOf x.dt.idToName.lookup) =
      (idList.map DocIDElementHeader.docId).map (x.result (word :: query)) := by
    rw [List.map_map]
    apply List.map_congr_left
    intro header hheader
    obtain ⟨r, hr, hnum⟩ := (hlist header).mp hheader
    rw [Function.comp_apply, IndexedFile.result, resultOf, hnum, ((rankOf_stored x.indexes x.wordBytes).mp hr).2]
  rw [hsame]
  exact hdocs.map _

theorem queryIndices_answer {readers : List IndexReaders} (hserves : Serves readers indices)
    (hfit : ∀ x ∈ indices, SumsFit x.mi.stored (word :: query)) :
    ∃ results live readers', queryIndices word query readers = .ok (results, live, readers') ∧
      Serves readers' indices ∧ results.Perm (answer indices (word :: query)) := by
  induction hserves with
  | nil => exact ⟨[], 0, [], rfl, .nil, .refl _⟩
  | @cons r x readers indices hr _ ih =>
      obtain ⟨hdtr, hitr, himage⟩ := hr
      obtain ⟨hx, hrest⟩ := List.forall_mem_cons.mp hfit
      obtain ⟨more, liveMore, readers', hmore, hserves', hperm⟩ := ih hrest
      obtain ⟨idList, live, hreturns, hlist, hnodup⟩ := queryIndex_found x.dt.idToName.lookup
        (fun w _ => x.findsWordPostings w) (fun wp docId p hstored hp => x.hdocs hstored hp) hx
      obtain ⟨pos, hrun⟩ := hreturns r.file.pos r.file.linked
      rw [← himage] at hrun
      refine ⟨idList.map (resultOf x.dt.idToName.lookup) ++ more, live + liveMore,
        { r with file := ⟨r.file.image, pos, r.file.linked⟩ } :: readers', ?_, .cons ⟨hdtr, hitr, himage⟩ hserves', ?_⟩
      · rw [queryIndices, hdtr, hitr, hrun, Run.ok_bind]
        simp only [hmore, Run.ok_bind]
        rfl
      · rw [answer, List.flatMap_cons]
        exact (results_perm hlist hnodup).append hperm

/-- In descending order of ranks. -/
def Descending (results : List QueryResult) : Prop := results.Pairwise fun res₁ res₂ => res₂.rank ≤ res₁.rank

/-- The expected results in descending order, those of equal rank in any. -/
structure Ordered (expected results : List QueryResult) : Prop where
  same : results.Perm expected
  descending : Descending results

/-- Only the order among equal ranks is open. -/
theorem Ordered.agree {expected expected' results results' : List QueryResult} (h : Ordered expected results)
    (h' : Ordered expected' results') (hsame : expected.Perm expected') :
    results.Perm results' ∧ results.map QueryResult.rank = results'.map QueryResult.rank := by
  have hperm := (h.same.trans hsame).trans h'.same.symm
  have hanti : ∀ r₁ r₂ : Int, r₁ ∈ results.map QueryResult.rank → r₂ ∈ results'.map QueryResult.rank →
      r₂ ≤ r₁ → r₁ ≤ r₂ → r₁ = r₂ := fun _ _ _ _ hle hge => Int.le_antisymm hge hle
  exact ⟨hperm, List.Perm.eq_of_pairwise hanti (List.pairwise_map.mpr h.descending)
    (List.pairwise_map.mpr h'.descending) (hperm.map _)⟩

theorem descending_sort (sorter : Sorter QueryResult.less) (results : List QueryResult) :
    Descending (sorter.sort results) := by
  refine (sorter.sorted strictWeak_less results).imp ?_
  intro res₁ res₂ hless
  simp only [QueryResult.less, decide_eq_false_iff_not] at hless
  omega

theorem processQuery_answer (sorter : Sorter QueryResult.less) {qp : QueryProcessor}
    (hserves : Serves qp.readers indices) (hquery : query ≠ []) (hfit : ∀ x ∈ indices, SumsFit x.mi.stored query) :
    ∃ results qp', processQuery sorter qp query = .ok (results, qp') ∧ Serves qp'.readers indices ∧
      Ordered (answer indices query) results := by
  obtain ⟨word, query, rfl⟩ := List.exists_cons_of_ne_nil hquery
  obtain ⟨results, live, readers', hrun, hserves', hperm⟩ := queryIndices_answer hserves hfit
  refine ⟨sorter.sort results, ⟨readers', qp.live + live⟩, ?_, hserves', (sorter.perm results).trans hperm,
    descending_sort sorter results⟩
  rw [processQuery, hrun]
  rfl

/-- A query that returns is one for words whose sums fit. -/
theorem fits_of_processQuery {qp qp' : QueryProcessor} (hserves : Serves qp.readers indices)
    {results : List QueryResult} (h : processQuery sorter qp query = .ok (results, qp')) :
    query ≠ [] ∧ ∀ x ∈ indices, SumsFit x.mi.stored query := by
  have hquery : query ≠ [] := by
    rintro rfl
    cases h
  refine ⟨hquery, ?_⟩
  rcases processQuery_ends sorter hserves hquery with ⟨hfit, _⟩ | ⟨_, e, hrun⟩
  · exact hfit
  · rw [hrun] at h
    cases h

theorem answer_of_processQuery {qp qp' : QueryProcessor} (hserves : Serves qp.readers indices)
    {results : List QueryResult} (h : processQuery sorter qp query = .ok (results, qp')) :
    query ≠ [] ∧ Serves qp'.readers indices ∧ Ordered (answer indices query) results := by
  obtain ⟨hquery, hfit⟩ := fits_of_processQuery hserves h
  obtain ⟨results₁, qp₁, hrun, hspec⟩ := processQuery_answer sorter hserves hquery hfit
  obtain ⟨rfl, rfl⟩ := Prod.mk.inj (Except.ok.inj (h.symm.trans hrun))
  exact ⟨hquery, hspec⟩

/-- A query with words whose sums stay within the range of an int. -/
structure Fits (indices : List IndexedFile) (query : List Bytes) : Prop where
  nonempty : query ≠ []
  sums : ∀ x ∈ indices, ∀ q, q <+: query → ∀ docId, ContainsAll x.adds q docId → rankSum x.adds q docId ≤ INT_MAX

theorem fits_iff : Fits indices query ↔ query ≠ [] ∧ ∀ x ∈ indices, SumsFit x.mi.stored query := by
  constructor
  · rintro ⟨hquery, hsums⟩
    exact ⟨hquery, fun x hx => (sumsFit_stored x.indexes x.wordBytes).mpr (hsums x hx)⟩
  · rintro ⟨hquery, hfit⟩
    exact ⟨hquery, fun x hx => (sumsFit_stored x.indexes x.wordBytes).mp (hfit x hx)⟩

/-- A query with room for its readers is answered, and any other ends the
process. -/
theorem processQuery_ready (sorter : Sorter QueryResult.less) (descriptors : Nat) {live : Nat} {qp : Processor}
    (h : Ready indices live qp) (query : List Bytes) :
    ((Fits indices query ∧
        Quota.Within Search.opens Search.leaves descriptors live (indices.map (search query))) ∧
      ∃ qp' results, ReaderOwnership.processQuery sorter descriptors qp query = .ok (qp', results) ∧
        Ordered (answer indices query) results ∧
        Ready indices (live + ((indices.map (search query)).map Search.leaves).sum) qp') ∨
    (¬(Fits indices query ∧
        Quota.Within Search.opens Search.leaves descriptors live (indices.map (search query))) ∧
      ∃ e, ReaderOwnership.processQuery sorter descriptors qp query = .error e) := by
  by_cases hquery : query = []
  · subst hquery
    exact .inr ⟨fun h => h.1.nonempty rfl, _, rfl⟩
  · rw [fits_iff]
    rcases ReaderOwnership.processQuery_ends sorter descriptors h hquery with
      ⟨hyes, qp', results, _, hrun, hplain, hready⟩ | ⟨hno, hrun⟩
    · have hserves : Serves (QueryProcessor.mk qp.readers 0).readers indices := h.serves
      obtain ⟨_, _, hordered⟩ := answer_of_processQuery hserves hplain
      exact .inl ⟨⟨⟨hquery, hyes.1⟩, hyes.2⟩, qp', results, hrun, hordered, hready⟩
    · exact .inr ⟨fun h => hno ⟨h.1.2, h.2⟩, hrun⟩

/-- A session of queries is answered throughout exactly when each of them has
words, no sum of theirs overflows, and the descriptors suffice. -/
theorem run_answered_iff (sorter : Sorter QueryResult.less) (descriptors : Nat) {live : Nat} {qp : Processor}
    (hready : Ready indices live qp) (queries : List (List Bytes)) :
    (∃ qp' out, Simulation.run (ReaderOwnership.processQuery sorter descriptors) qp queries = .ok (qp', out) ∧
        List.Forall₂ (fun query => Ordered (answer indices query)) queries out) ↔
      (∀ query ∈ queries, Fits indices query) ∧
        Quota.Within Search.opens Search.leaves descriptors live (searches indices queries) := by
  induction queries generalizing qp live with
  | nil => exact iff_of_true ⟨qp, [], rfl, .nil⟩ ⟨by simp, trivial⟩
  | cons query queries ih =>
      rw [List.forall_mem_cons, searches, List.flatMap_cons, Quota.within_append, Simulation.run]
      rcases processQuery_ready sorter descriptors hready query with
        ⟨hyes, qp₁, results, hrun, hordered, hready₁⟩ | ⟨hno, e, hrun⟩
      · have hrest := ih hready₁
        rw [hrun, Run.ok_bind]
        constructor
        · rintro ⟨qp', out, hall, hanswers⟩
          obtain ⟨⟨qp₂, rest⟩, htail, hend⟩ := Run.bind_eq_ok.mp hall
          obtain ⟨rfl, rfl⟩ := Prod.mk.inj (Except.ok.inj hend)
          obtain ⟨hfits, hroom⟩ := hrest.mp ⟨_, rest, htail, (List.forall₂_cons.mp hanswers).2⟩
          exact ⟨⟨hyes.1, hfits⟩, hyes.2, hroom⟩
        · rintro ⟨⟨_, hfits⟩, _, hroom⟩
          obtain ⟨qp', rest, htail, hanswers⟩ := hrest.mpr ⟨hfits, hroom⟩
          refine ⟨qp', results :: rest, ?_, .cons hordered hanswers⟩
          dsimp only
          rw [htail]
          rfl
      · refine iff_of_false ?_ fun h => hno ⟨h.1.1, h.2.1⟩
        rintro ⟨qp', out, hall, _⟩
        rw [hrun] at hall
        cases hall

/-- The number is of the descriptors that the process may have open beside
those of the indices. -/
theorem session_answered_iff (sorter : Sorter QueryResult.less) (descriptors : Nat) (hindices : indices ≠ [])
    (validate : Bool) (queries : List (List Bytes)) :
    (∃ qp qp' out, new (indices.map IndexedFile.file) validate = .ok qp ∧
        Simulation.run (ReaderOwnership.processQuery sorter descriptors) ⟨qp.readers, .empty⟩ queries = .ok (qp', out) ∧
        List.Forall₂ (fun query => Ordered (answer indices query)) queries out) ↔
      (∀ query ∈ queries, Fits indices query) ∧
        Quota.Within Search.opens Search.leaves descriptors 0 (searches indices queries) := by
  obtain ⟨qp, hnew, hserves⟩ := new_serves validate hindices
  rw [← run_answered_iff sorter descriptors (ready_new hserves) queries]
  constructor
  · rintro ⟨qp₁, qp', out, hnew₁, hrun⟩
    obtain rfl := Except.ok.inj (hnew.symm.trans hnew₁)
    exact ⟨qp', out, hrun⟩
  · rintro ⟨qp', out, hrun⟩
    exact ⟨qp, qp', out, hnew, hrun⟩

theorem fits_small {x : IndexedFile} (hadds : x.adds = smallAdds) (hindices : ∀ y ∈ indices, y = x)
    (hquery : query ≠ []) (hlen : query.length ≤ 2) : Fits indices query := by
  refine ⟨hquery, ?_⟩
  intro y hy q hq docId _
  have hsum := rankSum_le smallAdds (k := 2) (by decide) q docId
  have hprefix := hq.length_le
  rw [hindices y hy, hadds]
  unfold INT_MAX
  omega

theorem session_answered_small : ∃ x : IndexedFile, x.names = smallNames ∧ x.adds = smallAdds ∧
    ∃ qp qp' out, new ([x, x].map IndexedFile.file) true = .ok qp ∧
      Simulation.run (ReaderOwnership.processQuery (mergeSorter _) 1000) ⟨qp.readers, .empty⟩
        [[ascii ['a'], ascii ['b']], [ascii ['c']]] = .ok (qp', out) ∧
      List.Forall₂ (fun query => Ordered (answer [x, x] query)) [[ascii ['a'], ascii ['b']], [ascii ['c']]] out := by
  obtain ⟨x, hnames, hadds⟩ := indexedFile_small
  refine ⟨x, hnames, hadds, (session_answered_iff (mergeSorter _) 1000 (List.cons_ne_nil x [x]) true _).mpr ⟨?_, ?_⟩⟩
  case refine_2 => exact Quota.within_of_length Search.opens_le Search.leaves_le (by simp [searches])
  intro query hquery
  have hlen : query ≠ [] ∧ query.length ≤ 2 := by
    rcases List.mem_cons.mp hquery with rfl | hquery
    · simp
    · rw [List.mem_singleton.mp hquery]
      simp
  exact fits_small hadds (by simp) hlen.1 hlen.2

theorem answer_perm {indices' : List IndexedFile} {query' : List Bytes} (hindices : indices.Perm indices')
    (hquery : query.Perm query') : (answer indices query).Perm (answer indices' query') := by
  have hsame (x : IndexedFile) :
      (x.matching query).map (x.result query) = (x.matching query').map (x.result query') := by
    have hdocs : x.matching query = x.matching query' := by
      simp only [IndexedFile.matching, hquery.mem_iff]
    rw [hdocs]
    apply List.map_congr_left
    intro docId _
    have hsum : rankSum x.adds query docId = rankSum x.adds query' docId :=
      (hquery.map fun word => positionCount x.adds word docId).sum_eq
    rw [IndexedFile.result, IndexedFile.result, hsum]
  simp only [answer, hsame]
  exact hindices.flatMap_right _

/-- The order of the words, that of the index files and the way the results are
sorted decide about nothing but the order among equal ranks. -/
theorem processQuery_reordered {sorter' : Sorter QueryResult.less} {indices' : List IndexedFile}
    {query' : List Bytes} {qp qp' qp₁ qp₁' : QueryProcessor} {results results' : List QueryResult}
    (hindices : indices.Perm indices') (hquery : query.Perm query') (hserves : Serves qp.readers indices)
    (hserves' : Serves qp'.readers indices') (h : processQuery sorter qp query = .ok (results, qp₁))
    (h' : processQuery sorter' qp' query' = .ok (results', qp₁')) :
    results.Perm results' ∧ results.map QueryResult.rank = results'.map QueryResult.rank := by
  obtain ⟨_, _, hordered⟩ := answer_of_processQuery hserves h
  obtain ⟨_, _, hordered'⟩ := answer_of_processQuery hserves' h'
  exact hordered.agree hordered' (answer_perm hindices hquery)

/-- The processor of the small index, and what two of its queries come to. -/
theorem exists_processQuery_small : ∃ (x : IndexedFile) (qp : QueryProcessor), x.adds = smallAdds ∧
    Serves qp.readers [x] ∧ ∀ query : List Bytes, query ≠ [] → query.length ≤ 2 →
      ∃ results qp', processQuery (mergeSorter _) qp query = .ok (results, qp') := by
  obtain ⟨x, _, hadds⟩ := indexedFile_small
  obtain ⟨qp, _, hserves⟩ := new_serves true (List.cons_ne_nil x [])
  refine ⟨x, qp, hadds, hserves, ?_⟩
  intro query hquery hlen
  obtain ⟨_, hfit⟩ := fits_iff.mp (show Fits [x] query from fits_small hadds (by simp) hquery hlen)
  obtain ⟨results, qp', hrun, _⟩ := processQuery_answer (mergeSorter _) hserves hquery hfit
  exact ⟨results, qp', hrun⟩

theorem processQuery_reordered_small : ∃ (x : IndexedFile) (qp qp₁ qp₂ : QueryProcessor)
    (results results' : List QueryResult), x.adds = smallAdds ∧ Serves qp.readers [x] ∧
      processQuery (mergeSorter _) qp [ascii ['a'], ascii ['b']] = .ok (results, qp₁) ∧
      processQuery (mergeSorter _) qp [ascii ['b'], ascii ['a']] = .ok (results', qp₂) ∧
      results.Perm results' ∧ results.map QueryResult.rank = results'.map QueryResult.rank := by
  obtain ⟨x, qp, hadds, hserves, hruns⟩ := exists_processQuery_small
  obtain ⟨results, qp₁, h⟩ := hruns [ascii ['a'], ascii ['b']] (by simp) (by simp)
  obtain ⟨results', qp₂, h'⟩ := hruns [ascii ['b'], ascii ['a']] (by simp) (by simp)
  exact ⟨x, qp, qp₁, qp₂, results, results', hadds, hserves, h, h',
    processQuery_reordered (.refl [x]) (.swap _ _ _) hserves hserves h h'⟩

namespace IndexedFile

variable {x : IndexedFile} {docId docId' : DocID}

theorem matching_registered (hquery : query ≠ []) (h : docId ∈ x.matching query) :
    ∃ name, x.dt.idToName.lookup docId = some name := by
  obtain ⟨word, query, rfl⟩ := List.exists_cons_of_ne_nil hquery
  obtain ⟨a, ha, _, rfl⟩ := (mem_matching hquery).mp h word (by simp)
  obtain ⟨name, hname⟩ := x.registered a ha
  exact ⟨name, DocTable.lookup_of_getDocName hname⟩

/-- A document has one ID. -/
theorem name_inj {name : Bytes} (h : x.dt.idToName.lookup docId = some name)
    (h' : x.dt.idToName.lookup docId' = some name) : docId = docId' := by
  obtain ⟨names, hreg, _⟩ := DocTable.build_registers x.docTable
  exact hreg.name_inj h h'

theorem mem_results (hquery : query ≠ []) {res : QueryResult} :
    res ∈ (x.matching query).map (x.result query) ↔ ∃ docId, ContainsAll x.adds query docId ∧
      x.dt.idToName.lookup docId = some res.documentName ∧ res.rank = (rankSum x.adds query docId : Nat) := by
  rw [List.mem_map]
  constructor
  · rintro ⟨docId, hdoc, rfl⟩
    obtain ⟨name, hname⟩ := matching_registered hquery hdoc
    exact ⟨docId, (mem_matching hquery).mp hdoc, by rw [result, hname]; rfl, rfl⟩
  · rintro ⟨docId, hall, hname, hrank⟩
    refine ⟨docId, (mem_matching hquery).mpr hall, ?_⟩
    rw [result, hname, ← hrank]
    rfl

end IndexedFile

/-- The words of two queries together find the documents that both queries
find, with the sums of their ranks. -/
theorem processQuery_append {x : IndexedFile} {query' : List Bytes} {qp qp' qp'' qp₁ qp₁' qp₁'' : QueryProcessor}
    {results results' results'' : List QueryResult} (hserves : Serves qp.readers [x])
    (hserves' : Serves qp'.readers [x]) (hserves'' : Serves qp''.readers [x])
    (h : processQuery sorter qp query = .ok (results, qp₁))
    (h' : processQuery sorter qp' query' = .ok (results', qp₁'))
    (h'' : processQuery sorter qp'' (query ++ query') = .ok (results'', qp₁'')) (res : QueryResult) :
    res ∈ results'' ↔ ∃ r r', ⟨res.documentName, r⟩ ∈ results ∧ ⟨res.documentName, r'⟩ ∈ results' ∧
      res.rank = r + r' := by
  obtain ⟨hne, _, hperm, _⟩ := answer_of_processQuery hserves h
  obtain ⟨hne', _, hperm', _⟩ := answer_of_processQuery hserves' h'
  obtain ⟨hne'', _, hperm'', _⟩ := answer_of_processQuery hserves'' h''
  simp only [answer, List.flatMap_cons, List.flatMap_nil, List.append_nil] at hperm hperm' hperm''
  have hall (docId : DocID) : ContainsAll x.adds (query ++ query') docId ↔
      ContainsAll x.adds query docId ∧ ContainsAll x.adds query' docId := List.forall_mem_append
  have hsum (docId : DocID) : rankSum x.adds (query ++ query') docId =
      rankSum x.adds query docId + rankSum x.adds query' docId := by simp [rankSum]
  simp only [hperm.mem_iff, hperm'.mem_iff, hperm''.mem_iff, IndexedFile.mem_results hne,
    IndexedFile.mem_results hne', IndexedFile.mem_results hne'', hall, hsum]
  constructor
  · rintro ⟨docId, ⟨hq, hq'⟩, hname, hrank⟩
    exact ⟨_, _, ⟨docId, hq, hname, rfl⟩, ⟨docId, hq', hname, rfl⟩, by rw [hrank, Int.natCast_add]⟩
  · rintro ⟨r, r', ⟨docId, hq, hname, rfl⟩, ⟨docId', hq', hname', rfl⟩, hrank⟩
    obtain rfl := IndexedFile.name_inj hname hname'
    exact ⟨docId, ⟨hq, hq'⟩, hname, by rw [hrank, Int.natCast_add]⟩

theorem processQuery_append_small : ∃ (x : IndexedFile) (qp qp₁ qp₂ qp₃ : QueryProcessor)
    (results results' results'' : List QueryResult), x.adds = smallAdds ∧ Serves qp.readers [x] ∧
      processQuery (mergeSorter _) qp [ascii ['a']] = .ok (results, qp₁) ∧
      processQuery (mergeSorter _) qp [ascii ['b']] = .ok (results', qp₂) ∧
      processQuery (mergeSorter _) qp ([ascii ['a']] ++ [ascii ['b']]) = .ok (results'', qp₃) ∧
      ∀ res : QueryResult, res ∈ results'' ↔ ∃ r r', ⟨res.documentName, r⟩ ∈ results ∧
        ⟨res.documentName, r'⟩ ∈ results' ∧ res.rank = r + r' := by
  obtain ⟨x, qp, hadds, hserves, hruns⟩ := exists_processQuery_small
  obtain ⟨results, qp₁, h⟩ := hruns [ascii ['a']] (by simp) (by simp)
  obtain ⟨results', qp₂, h'⟩ := hruns [ascii ['b']] (by simp) (by simp)
  obtain ⟨results'', qp₃, h''⟩ := hruns ([ascii ['a']] ++ [ascii ['b']]) (by simp) (by simp)
  exact ⟨x, qp, qp₁, qp₂, qp₃, results, results', results'', hadds, hserves, h, h', h'',
    processQuery_append hserves hserves hserves h h' h''⟩

end SearchEngine.QueryProcessor
