import SearchEngine.ProcessRequest
import SearchEngine.QueryAgreement
import Mathlib.Tactic.IntervalCases

/-! Which characters of markup a result page has, and where they come from. -/

namespace SearchEngine.HttpServer

open HttpUtils StdString

/-- The angle brackets and the two quotes. -/
def isMarkup (c : UInt8) : Bool := c == 60 || c == 62 || c == 34 || c == 39

def markup (s : Bytes) : Bytes := s.filter isMarkup

@[simp]
theorem markup_append (s t : Bytes) : markup (s ++ t) = markup s ++ markup t := List.filter_append ..

theorem markup_eq_nil {s : Bytes} (h : ∀ c ∈ s, c = 38 ∨ c ∉ unsafeTokens) : markup s = [] := by
  apply List.filter_eq_nil_iff.mpr
  intro c hc
  rcases h c hc with rfl | hsafe
  · decide
  · simp only [unsafeTokens, List.mem_cons, List.not_mem_nil, or_false, not_or] at hsafe
    simp [isMarkup, hsafe]

theorem markup_escapeChar (c : UInt8) : markup (escapeChar c) = [] := by
  apply markup_eq_nil
  rw [escapeChar]
  cases h : escapeCode c with
  | none =>
      intro b hb
      obtain rfl := List.mem_singleton.mp hb
      right
      rw [← escapeCode_isSome, h]
      exact Bool.false_ne_true
  | some code =>
      obtain ⟨rest, rfl, hrest⟩ := escapeCode_tail h
      intro b hb
      rcases List.mem_cons.mp hb with rfl | hb
      · exact .inl rfl
      · exact .inr (hrest b hb)

theorem markup_escaped (s : Bytes) : markup (s.flatMap escapeChar) = [] := by
  induction s with
  | nil => rfl
  | cons c s ih => rw [List.flatMap_cons, markup_append, markup_escapeChar, ih, List.append_nil]

theorem markup_decimal (n : Nat) : markup (HttpResponse.decimal n) = [] := by
  apply markup_eq_nil
  intro c hc
  obtain ⟨d, hd, rfl⟩ := HttpResponse.decimal_digits n c hc
  right
  interval_cases d <;> decide

theorem markup_decimalOf (n : Int) : markup (decimalOf n) = [] := by
  unfold decimalOf
  split
  · exact markup_decimal _
  · exact markup_decimal _

/-- The markup of a link before the name, and after it. -/
def beforeName : Bytes := [60, 62, 60, 34]

def afterName : Bytes := [34, 62, 60, 62, 60, 62]

theorem resultItem_markup (result : QueryResult) : ∃ item, resultItem result = .ok item ∧
    markup item = beforeName ++ markup result.documentName ++ afterName := by
  have hcompare : comparesEqual result.documentName 0 5 (ascii "http:".toList) =
      .ok (decide (result.documentName.take 5 = ascii "http:".toList)) := by
    simp [comparesEqual, substr]
  have hclose : markup (ascii "\">".toList) = [34, 62] := by decide
  have hanchor : markup (ascii "</a> [".toList) = [60, 62] := by decide
  have hbracket : markup (ascii "]".toList) = [] := by decide
  have hend : markup (ascii "</li>\r\n".toList) = [60, 62] := by decide
  have hhttp : markup (ascii "<li><a href=\"".toList) = beforeName := by decide
  have hstatic : markup (ascii "<li><a href=\"/static/".toList) = beforeName := by decide
  rw [resultItem, escapeHtml_eq, Run.ok_bind, hcompare, Run.ok_bind]
  split
  · refine ⟨_, rfl, ?_⟩
    simp only [markup_append, hhttp, hclose, markup_escaped, hanchor, markup_decimalOf, hbracket, hend]
    simp [afterName]
  · refine ⟨_, rfl, ?_⟩
    simp only [markup_append, hstatic, hclose, markup_escaped, hanchor, markup_decimalOf, hbracket, hend]
    simp [afterName]

theorem resultItems_markup (results : List QueryResult) : ∃ items, resultItems results = .ok items ∧
    markup items = results.flatMap fun result => beforeName ++ markup result.documentName ++ afterName := by
  induction results with
  | nil => exact ⟨[], rfl, rfl⟩
  | cons result results ih =>
      obtain ⟨item, hitem, hmarkup⟩ := resultItem_markup result
      obtain ⟨rest, hrest, hmarkupRest⟩ := ih
      refine ⟨item ++ rest, ?_, by rw [markup_append, hmarkup, hmarkupRest, List.flatMap_cons]⟩
      rw [resultItems, hitem, Run.ok_bind, hrest]
      rfl

/-- The markup of the names, with that of the page between two of them. -/
def namesMarkup (results : List QueryResult) : Bytes :=
  (afterName ++ beforeName).intercalate (results.map fun result => markup result.documentName)

theorem flatMap_eq_intercalate (before after : Bytes) {names : List Bytes} (h : names ≠ []) :
    (names.flatMap fun name => before ++ name ++ after) =
      before ++ (after ++ before).intercalate names ++ after := by
  induction names with
  | nil => exact absurd rfl h
  | cons name names ih =>
      cases names with
      | nil => simp
      | cons next names =>
          rw [List.flatMap_cons, ih (by simp), List.intercalate_cons_cons]
          simp

/-- The page's own markup around the links. -/
theorem resultSection_markup (query : Bytes) (results : List QueryResult) :
    ∃ found, resultSection query results = .ok found ∧ markup found =
      if results = [] then [60, 62, 60, 62, 60, 62, 60, 62, 60, 62]
      else [60, 62, 60, 62, 60, 62, 60, 62, 60, 62, 60, 62] ++ beforeName ++ namesMarkup results ++ afterName ++
        [60, 62] := by
  have hparagraph : markup (ascii "<p><br>\r\n".toList) = [60, 62, 60, 62] := by decide
  rw [resultSection, escapeHtml_eq, Run.ok_bind]
  cases results with
  | nil =>
      have hnone : markup (ascii "No results found for <b>".toList) = [60, 62] := by decide
      have hbold : markup (ascii "</b>\r\n".toList) = [60, 62] := by decide
      have hend : markup (ascii "<p>\r\n".toList) = [60, 62] := by decide
      have hline : markup (ascii "\r\n".toList) = [] := by decide
      refine ⟨_, rfl, ?_⟩
      simp only [markup_append, hparagraph, hnone, markup_escaped, hbold, hend, hline]
      rfl
  | cons result results =>
      obtain ⟨items, hitems, hmarkup⟩ := resultItems_markup (result :: results)
      have hfound : markup (ascii " results found for <b>".toList) = [60, 62] := by decide
      have hbold : markup (ascii "</b></p>\r\n".toList) = [60, 62, 60, 62] := by decide
      have hlist : markup (ascii "<ul>\r\n".toList) = [60, 62] := by decide
      have hend : markup (ascii "</ul>\r\n".toList) = [60, 62] := by decide
      have hlinks := flatMap_eq_intercalate beforeName afterName
        (show (result :: results).map (fun result => markup result.documentName) ≠ [] by simp)
      rw [List.flatMap_map] at hlinks
      rw [if_neg (by simp), hitems, Run.ok_bind]
      refine ⟨_, rfl, ?_⟩
      simp only [markup_append, hparagraph, markup_decimalOf, hfound, markup_escaped, hbold, hlist, hmarkup, hend,
        hlinks, namesMarkup]
      simp

/-- A run of ProcessQueryRequest: the query that it was sent, trimmed, and the
matches that it found. -/
structure QueryRun where
  sorter : Sorter QueryResult.less
  indices : List OpenFile
  uri : Bytes
  parser : URLParser
  results : List QueryResult
  response : HttpResponse
  parses : URLParser.init.parse uri = .ok parser
  finds : if queryOf parser = [] then results = []
    else findMatches sorter indices (Boost.toLower (queryOf parser)) = .ok results
  answers : processQueryRequest sorter indices uri = .ok response

namespace QueryRun

def query (r : QueryRun) : Bytes := queryOf r.parser

theorem results_of_blank (r : QueryRun) (h : r.query = []) : r.results = [] := by
  have hfinds := r.finds
  unfold query at h
  rwa [if_pos h] at hfinds

theorem body_markup (r : QueryRun) : markup r.response.body = markup searchPage ++
    if r.query = [] then []
    else if r.results = [] then [60, 62, 60, 62, 60, 62, 60, 62, 60, 62]
    else [60, 62, 60, 62, 60, 62, 60, 62, 60, 62, 60, 62] ++ beforeName ++ namesMarkup r.results ++ afterName ++
      [60, 62] := by
  have hrun := r.answers
  have hfinds := r.finds
  rw [processQueryRequest, r.parses, Run.ok_bind] at hrun
  unfold query
  by_cases hquery : queryOf r.parser = []
  · simp only [hquery, List.isEmpty_nil, if_true, Run.pure_eq_ok, Run.ok_bind] at hrun
    rw [← Except.ok.inj hrun, if_pos hquery, markup_append]
    rfl
  · rw [if_neg hquery] at hfinds
    obtain ⟨found, hfound, hmarkup⟩ := resultSection_markup (Boost.toLower (queryOf r.parser)) r.results
    have hnonempty : (queryOf r.parser).isEmpty = false := by simpa using hquery
    simp only [hnonempty, searchResults, hfinds, Run.ok_bind, hfound] at hrun
    rw [← Except.ok.inj hrun, if_neg hquery, ← hmarkup, markup_append]

end QueryRun

/-- The markup of two pages is the same exactly when that of the names in
their links is. -/
theorem markup_same_iff (r r' : QueryRun) (hempty : r.query = [] ↔ r'.query = [])
    (hcount : r.results.length = r'.results.length) :
    markup r.response.body = markup r'.response.body ↔ namesMarkup r.results = namesMarkup r'.results := by
  have hsame : r.results = [] ↔ r'.results = [] := by
    rw [← List.length_eq_zero_iff, ← List.length_eq_zero_iff, hcount]
  rw [r.body_markup, r'.body_markup, List.append_cancel_left_eq]
  by_cases hquery : r.query = []
  · rw [if_pos hquery, if_pos (hempty.mp hquery), r.results_of_blank hquery, r'.results_of_blank (hempty.mp hquery)]
    exact iff_of_true rfl rfl
  · rw [if_neg hquery, if_neg (mt hempty.mpr hquery)]
    by_cases hresults : r.results = []
    · rw [if_pos hresults, if_pos (hsame.mp hresults), hresults, hsame.mp hresults]
      exact iff_of_true rfl rfl
    · rw [if_neg hresults, if_neg (mt hsame.mpr hresults)]
      simp

/-- Without markup in the names it is the page's own. -/
theorem markup_same_of_plain (r r' : QueryRun) (hempty : r.query = [] ↔ r'.query = [])
    (hcount : r.results.length = r'.results.length) (hplain : ∀ result ∈ r.results, markup result.documentName = [])
    (hplain' : ∀ result ∈ r'.results, markup result.documentName = []) :
    markup r.response.body = markup r'.response.body := by
  rw [markup_same_iff r r' hempty hcount, namesMarkup, namesMarkup, List.map_eq_replicate_iff.mpr hplain,
    List.map_eq_replicate_iff.mpr hplain', hcount]

section

open QueryProcessor

/-- A query of one index that WriteIndex has written. -/
theorem exists_queryRun (sorter : Sorter QueryResult.less) (x : IndexedFile) {uri : Bytes} {parser : URLParser}
    {expected : List QueryResult} (hparses : URLParser.init.parse uri = .ok parser) (hquery : queryOf parser ≠ [])
    (hfree : CollisionFree x.adds (queryWords (Boost.toLower (queryOf parser))))
    (hfit : ∀ q, q <+: queryWords (Boost.toLower (queryOf parser)) → ∀ docId, ContainsAll x.adds q docId →
      rankSum x.adds q docId ≤ INT_MAX)
    (hsearch : searchNamed x.dt x.mi (queryWords (Boost.toLower (queryOf parser))) = .ok expected) :
    ∃ r : QueryRun, r.indices = [x.file] ∧ r.parser = parser ∧ r.results.Perm expected := by
  obtain ⟨qp, results, qp', all, hnew, hrun, hall, hperm, _⟩ := processQuery_agrees sorter
    (show [x] ≠ [] by simp)
    (queryWords_ne_nil (Boost.toLower (queryOf parser))) (by simpa using hfree) (by simpa using hfit) false
  have hfinds : findMatches sorter [x.file] (Boost.toLower (queryOf parser)) = .ok results := by
    have hnew' : QueryProcessor.new [x.file] false = .ok qp := hnew
    rw [findMatches, hnew', Run.ok_bind, hrun]
    rfl
  have hexpected : all = expected := by
    have hone : searchAll (queryWords (Boost.toLower (queryOf parser))) [x] = .ok (expected ++ []) := by
      rw [searchAll, hsearch]
      rfl
    rw [List.append_nil] at hone
    exact Except.ok.inj (hall.symm.trans hone)
  obtain ⟨found, hfound, _⟩ := resultSection_markup (Boost.toLower (queryOf parser)) results
  have hnonempty : (queryOf parser).isEmpty = false := by simpa using hquery
  have hanswers : processQueryRequest sorter [x.file] uri =
      .ok ⟨protocol, 200, ascii "OK".toList, [], searchPage ++ found⟩ := by
    rw [processQueryRequest, hparses, Run.ok_bind]
    simp only [hnonempty, searchResults, hfinds, Run.ok_bind, hfound]
    rfl
  exact ⟨⟨sorter, [x.file], uri, parser, results, _, hparses, by rwa [if_neg hquery], hanswers⟩, rfl, rfl,
    hexpected ▸ hperm⟩

def termsUri : Bytes := ascii "/query?terms=a".toList

theorem termsUri_parses : ∃ parser, URLParser.init.parse termsUri = .ok parser ∧ queryOf parser = ascii ['a'] := by
  have hquery : ((URLParser.init.parse termsUri).toOption.map queryOf) = some (ascii ['a']) := by decide +kernel
  cases hparse : URLParser.init.parse termsUri with
  | error fault =>
      rw [hparse] at hquery
      cases hquery
  | ok parser =>
      rw [hparse] at hquery
      exact ⟨parser, rfl, Option.some.inj hquery⟩

def termsAdds : List Posting := [⟨ascii ['a'], 1, LinkedList.allocate.append 0⟩]

/-- The run of a query for the word a, in an index of one document that has
it. -/
theorem exists_termsRun {name : Bytes} (hname : name ≠ [] ∧ name.length ≤ 32767)
    (hbuild : (do
      let dt ← DocTable.build [name]
      let mi ← MemIndex.build termsAdds
      return decide (indexSize mi dt < 2 ^ 31) &&
        termsAdds.all fun a => (dt.getDocName a.docId).toOption.join.isSome) = .ok true)
    (hsearch : (do
      let dt ← DocTable.build [name]
      let mi ← MemIndex.build termsAdds
      searchNamed dt mi [ascii ['a']]) = .ok [⟨name, 1⟩]) :
    ∃ r : QueryRun, r.query = ascii ['a'] ∧ r.results = [⟨name, 1⟩] := by
  obtain ⟨x, hnames, hadds⟩ := exists_indexedFile (by simpa using hname) (by decide) hbuild
  obtain ⟨parser, hparses, hquery⟩ := termsUri_parses
  have hwords : queryWords (Boost.toLower (queryOf parser)) = [ascii ['a']] := by
    rw [hquery]
    decide
  have hnonempty : queryOf parser ≠ [] := by
    rw [hquery]
    decide
  have hfree : CollisionFree x.adds (queryWords (Boost.toLower (queryOf parser))) := by
    rw [hwords, hadds]
    unfold CollisionFree
    decide +kernel
  have hfound : searchNamed x.dt x.mi (queryWords (Boost.toLower (queryOf parser))) = .ok [⟨name, 1⟩] := by
    have hdt := x.docTable
    have hmi := x.memIndex
    rw [hnames] at hdt
    rw [hadds] at hmi
    rw [hdt, Run.ok_bind, hmi, Run.ok_bind] at hsearch
    rw [hwords, hsearch]
  obtain ⟨r, _, hparser, hperm⟩ := exists_queryRun (mergeSorter _) x hparses hnonempty hfree (by
    intro q hq docId _
    have hsum := rankSum_le termsAdds (k := 1) (by decide) q docId
    have hlen := hq.length_le
    rw [hwords, List.length_singleton] at hlen
    rw [hadds]
    unfold INT_MAX
    omega) hfound
  refine ⟨r, ?_, List.perm_singleton.mp hperm⟩
  rw [QueryRun.query, hparser, hquery]

theorem exists_plainRun : ∃ r : QueryRun, r.query = ascii ['a'] ∧ r.results = [⟨ascii ['d'], 1⟩] :=
  exists_termsRun (by decide) (by decide +kernel) (by decide +kernel)

theorem markup_same_small : ∃ r r' : QueryRun, r.results = [⟨ascii ['d'], 1⟩] ∧ r'.results = [⟨ascii ['e'], 1⟩] ∧
    (markup r.response.body = markup r'.response.body ↔ namesMarkup r.results = namesMarkup r'.results) := by
  obtain ⟨r, hquery, hresults⟩ := exists_plainRun
  obtain ⟨r', hquery', hresults'⟩ := @exists_termsRun (ascii ['e']) (by decide) (by decide +kernel) (by decide +kernel)
  refine ⟨r, r', hresults, hresults', markup_same_iff r r' ?_ ?_⟩
  · rw [hquery, hquery']
  · rw [hresults, hresults']
    rfl

/-- The name of the document has a quote, which ends the link's address. -/
theorem name_leaks_markup : ¬ ∀ r r' : QueryRun, (r.query = [] ↔ r'.query = []) →
    r.results.length = r'.results.length → markup r.response.body = markup r'.response.body := by
  intro hsame
  obtain ⟨r, hquery, hresults⟩ := exists_plainRun
  obtain ⟨r', hquery', hresults'⟩ := @exists_termsRun [34] (by decide) (by decide +kernel) (by decide +kernel)
  have hmarkup := hsame r r' (by rw [hquery, hquery']) (by rw [hresults, hresults']; rfl)
  have hblank : ascii ['a'] ≠ [] := by decide
  rw [r.body_markup, r'.body_markup, List.append_cancel_left_eq, hquery, hquery', if_neg hblank, if_neg hblank,
    hresults, hresults', if_neg (by simp), if_neg (by simp)] at hmarkup
  exact absurd hmarkup (by decide)

end

end SearchEngine.HttpServer
