import SearchEngine.HttpConnection
import SearchEngine.QuerySafety
import SearchEngine.ResultPage
import SearchEngine.StaticFiles

/-! Which requests the server answers. -/

namespace SearchEngine

namespace HttpConnection

/-- The second word of the first line. -/
def uriOf (request : Bytes) : Bytes :=
  let isLineEnd (b : UInt8) : Bool := b == 13 || b == 10
  match Boost.split isLineEnd (Boost.compress isLineEnd request) with
  | [] => ascii ['/']
  | first :: _ =>
      match Boost.split (fun b => b == 32) (Boost.compress (fun b => b == 32) first) with
      | _ :: uri :: _ => uri
      | _ => ascii ['/']

theorem parseHeaderLine_uri (req : HttpRequest) (line : Bytes) : (parseHeaderLine req line).uri = req.uri := by
  unfold parseHeaderLine
  dsimp only
  split
  · rfl
  · split <;> rfl

theorem foldl_parseHeaderLine_uri (lines : List Bytes) (req : HttpRequest) :
    (lines.foldl parseHeaderLine req).uri = req.uri := by
  induction lines generalizing req with
  | nil => rfl
  | cons line lines ih => rw [List.foldl_cons, ih, parseHeaderLine_uri]

theorem parseRequest_uri (request : Bytes) : (parseRequest request).uri = uriOf request := by
  unfold parseRequest uriOf
  dsimp only
  generalize Boost.split _ (Boost.compress _ request) = lines
  cases lines with
  | nil => rfl
  | cons first lines =>
      dsimp only
      rw [foldl_parseHeaderLine_uri]
      generalize Boost.split _ (Boost.compress _ first) = tokens
      match tokens with
      | [] => rfl
      | [_] => rfl
      | _ :: _ :: _ => rfl

end HttpConnection

namespace HttpServer

open FileParser HttpUtils QueryProcessor StdString

section

variable {fs : FileSystem} {calls : ReadCalls} {uri baseDir : Bytes}

/-- Of each regular file that the request names, as much as is read has a
length that is not negative as an int. -/
def FilesFit (fs : FileSystem) (calls : ReadCalls) (uri baseDir : Bytes) : Prop :=
  ∀ root p contents, Names fs calls uri baseDir root p contents → ∀ buf left,
    readLoop contents calls.reads [] contents.length = some (buf, left) → FitsInt buf.length

theorem requestedName_iff : (∃ name, requestedName uri = .ok name) ↔ URLParser.ShortUrl uri := by
  rw [← URLParser.parse_iff URLParser.init]
  constructor
  · rintro ⟨name, h⟩
    obtain ⟨parser, hparser, _⟩ := Run.bind_eq_ok.mp h
    exact ⟨parser, hparser⟩
  · rintro ⟨parser, hparser⟩
    obtain ⟨fileName, hname⟩ := fileNameOf_ok parser.path
    rw [requestedName, hparser, Run.ok_bind, hname]
    split
    · exact ⟨_, rfl⟩
    · exact ⟨_, rfl⟩

theorem readFile_ends_iff {fileName : Bytes} (hname : requestedName uri = .ok (some fileName)) :
    (∃ content, (staticReader baseDir fileName).readFile fs calls = .ok content) ↔
      FilesFit fs calls uri baseDir := by
  by_cases hread : ∃ contents, HttpUtils.ContainsPath fs baseDir (staticReader baseDir fileName).fullName ∧
      Delivers fs calls (cStr (staticReader baseDir fileName).fullName) contents
  · obtain ⟨contents, hcontains, hdelivers⟩ := hread
    obtain ⟨⟨buf, left⟩, hloop⟩ := Option.isSome_iff_exists.mp hdelivers.reads
    obtain ⟨root, p, hbase, hp, hbelow⟩ := hcontains
    have hrun := FileReader.readFile_reads (r := staticReader baseDir fileName) ⟨root, p, hbase, hp, hbelow⟩ hdelivers
      hloop
    rw [hrun]
    constructor
    · rintro ⟨content, hcontent⟩ root' p' contents' hnames buf' left' hloop'
      obtain ⟨fileName', hname', hp'⟩ := hnames.name
      obtain rfl := Option.some.inj (Except.ok.inj (hname.symm.trans hname'))
      obtain rfl := Option.some.inj (hp.symm.trans hp')
      have hnode := hdelivers.regular
      rw [FileSystem.stat, hp, Option.map_some, hnames.regular] at hnode
      obtain rfl := Node.regular.inj (Option.some.inj hnode)
      obtain ⟨rfl, _⟩ := Prod.mk.inj (Option.some.inj (hloop.symm.trans hloop'))
      by_contra hnot
      rw [if_neg hnot] at hcontent
      cases hcontent
    · intro hfits
      have hfit := hfits root p contents ((names_iff hname hbase hp).mpr ⟨⟨root, p, hbase, hp, hbelow⟩, hdelivers⟩)
        buf left hloop
      exact ⟨_, if_pos hfit⟩
  · have hnone := FileReader.readFile_none (r := staticReader baseDir fileName) hread
    rw [hnone]
    refine iff_of_true ⟨_, rfl⟩ ?_
    intro root p contents hnames
    obtain ⟨fileName', hname', hp⟩ := hnames.name
    obtain rfl := Option.some.inj (Except.ok.inj (hname.symm.trans hname'))
    exact absurd ⟨contents, (names_iff hname hnames.base hp).mp hnames⟩ hread

theorem processFileRequest_ends_iff : (∃ res, processFileRequest fs calls uri baseDir = .ok res) ↔
    URLParser.ShortUrl uri ∧ FilesFit fs calls uri baseDir := by
  rw [← requestedName_iff]
  constructor
  · rintro ⟨res, hres⟩
    obtain ⟨name, hname⟩ := requestedName_ok hres
    refine ⟨⟨name, hname⟩, ?_⟩
    cases name with
    | none =>
        intro root p contents hnames
        obtain ⟨fileName, hname', _⟩ := hnames.name
        rw [hname] at hname'
        cases Except.ok.inj hname'
    | some fileName =>
        obtain ⟨extension, escaped, heq⟩ := processFileRequest_eq hname
        rw [heq] at hres
        obtain ⟨content, hread, _⟩ := Run.bind_eq_ok.mp hres
        exact (readFile_ends_iff hname).mp ⟨content, hread⟩
  · rintro ⟨⟨name, hname⟩, hfits⟩
    cases name with
    | none => exact ⟨_, processFileRequest_empty hname⟩
    | some fileName =>
        obtain ⟨extension, escaped, heq⟩ := processFileRequest_eq hname
        obtain ⟨content, hread⟩ := (readFile_ends_iff hname).mpr hfits
        rw [heq, hread, Run.ok_bind]
        cases content with
        | none => exact ⟨_, rfl⟩
        | some str => exact ⟨_, rfl⟩

theorem readFile_error {r : FileReader} {e : Fault} (h : r.readFile fs calls = .error e) : e = .badAccess := by
  by_cases hread : ∃ contents, HttpUtils.ContainsPath fs r.basedir r.fullName ∧
      Delivers fs calls (cStr r.fullName) contents
  · obtain ⟨contents, hcontains, hdelivers⟩ := hread
    obtain ⟨⟨buf, left⟩, hloop⟩ := Option.isSome_iff_exists.mp hdelivers.reads
    rw [FileReader.readFile_reads hcontains hdelivers hloop] at h
    split at h
    · cases h
    · exact (Except.error.inj h).symm
  · rw [FileReader.readFile_none hread] at h
    cases h

theorem processFileRequest_error {e : Fault} (h : processFileRequest fs calls uri baseDir = .error e) :
    e = .outOfFuel ∨ e = .badAccess := by
  by_cases hshort : URLParser.ShortUrl uri
  · obtain ⟨name, hname⟩ := requestedName_iff.mpr hshort
    cases name with
    | none =>
        rw [processFileRequest_empty hname] at h
        cases h
    | some fileName =>
        obtain ⟨extension, escaped, heq⟩ := @processFileRequest_eq fs calls uri baseDir fileName hname
        rw [heq] at h
        rcases Run.bind_eq_error.mp h with hread | ⟨content, _, h⟩
        · exact .inr (readFile_error hread)
        · cases content with
          | none => cases h
          | some str => cases h
  · rw [processFileRequest] at h
    rcases Run.bind_eq_error.mp h with hparse | ⟨parser, hparser, _⟩
    · exact .inl (URLParser.parse_error hparse)
    · exact absurd ((URLParser.parse_iff _ uri).mp ⟨parser, hparser⟩) hshort

end

/-- The index can be opened, and no sum of positions over words of the query
leaves the range of an int. -/
structure ServesQuery (words : List Bytes) (x : CrawledFile) : Prop where
  offsets : x.OffsetsFit
  sums : SumsFit x.crawl.index.stored words

section

variable (sorter : Sorter QueryResult.less) {indices : List CrawledFile}

theorem findMatches_spec (hindices : indices ≠ []) (query : Bytes) :
    ((∀ x ∈ indices, ServesQuery (queryWords query) x) ∧
      ∃ results, findMatches sorter (indices.map CrawledFile.file) query = .ok results) ∨
    ((∃ x ∈ indices, ¬ServesQuery (queryWords query) x) ∧ ∃ e,
      findMatches sorter (indices.map CrawledFile.file) query = .error e ∧
        ((∀ x ∈ indices, x.OffsetsFit) → e = .signedOverflow)) := by
  have hne : decide (indices.map CrawledFile.file ≠ []) = true := by simpa using hindices
  by_cases hfit : ∀ x ∈ indices, x.OffsetsFit
  · obtain ⟨readers, hopen, hserves⟩ := openIndices_crawled false hfit
    have hnew : QueryProcessor.new (indices.map CrawledFile.file) false = .ok ⟨readers, 0⟩ := by
      rw [QueryProcessor.new, hne, hopen]
      rfl
    obtain ⟨word, words, hwords⟩ := List.exists_cons_of_ne_nil (queryWords_ne_nil query)
    rw [findMatches, hnew, Run.ok_bind, hwords, processQuery]
    rcases queryIndices_spec_crawled word words hserves hfit with ⟨hsums, out, hout⟩ | ⟨⟨x, hx, hnot⟩, hover⟩
    · exact .inl ⟨fun x hx => ⟨hfit x hx, hsums x hx⟩, _, by rw [hout]; rfl⟩
    · exact .inr ⟨⟨x, hx, fun h => hnot h.sums⟩, .signedOverflow, by rw [hover]; rfl, fun _ => rfl⟩
  · simp only [not_forall] at hfit
    obtain ⟨x, hx, hlarge⟩ := hfit
    have hopen := openIndices_large false ⟨x, hx, hlarge⟩
    refine .inr ⟨⟨x, hx, fun h => hlarge h.offsets⟩, .verify333, ?_, fun h => absurd (h x hx) hlarge⟩
    rw [findMatches, QueryProcessor.new, hne, hopen]
    rfl

/-- A query that is not blank, of a parser that has come to an end. -/
theorem processQueryRequest_eq {uri : Bytes} (hshort : URLParser.ShortUrl uri) (files : List OpenFile) :
    ∃ found : List QueryResult → Bytes, processQueryRequest sorter files uri =
      if queryOf (URLParser.init.parsed uri) = [] then .ok ⟨protocol, 200, ascii "OK".toList, [], searchPage⟩
      else do
        let results ← findMatches sorter files (Boost.toLower (queryOf (URLParser.init.parsed uri)))
        return ⟨protocol, 200, ascii "OK".toList, [], searchPage ++ found results⟩ := by
  rw [processQueryRequest, URLParser.parse_short hshort, Run.ok_bind]
  generalize queryOf (URLParser.init.parsed uri) = query
  choose found hfound _ using resultSection_markup (Boost.toLower query)
  refine ⟨found, ?_⟩
  cases query with
  | nil =>
      rw [if_pos rfl]
      simp
  | cons c query =>
      rw [if_neg (List.cons_ne_nil c query)]
      simp only [List.isEmpty_cons, Bool.false_eq_true, if_false, searchResults, bind_assoc, hfound, Run.ok_bind]

theorem processQueryRequest_ends_iff (hindices : indices ≠ []) (uri : Bytes) :
    (∃ res, processQueryRequest sorter (indices.map CrawledFile.file) uri = .ok res) ↔
      URLParser.ShortUrl uri ∧ (queryOf (URLParser.init.parsed uri) = [] ∨ ∀ x ∈ indices,
        ServesQuery (queryWords (Boost.toLower (queryOf (URLParser.init.parsed uri)))) x) := by
  by_cases hshort : URLParser.ShortUrl uri
  · obtain ⟨found, heq⟩ := processQueryRequest_eq sorter hshort (indices.map CrawledFile.file)
    rw [heq, and_iff_right hshort]
    by_cases hquery : queryOf (URLParser.init.parsed uri) = []
    · rw [if_pos hquery]
      exact iff_of_true ⟨_, rfl⟩ (.inl hquery)
    · rw [if_neg hquery, or_iff_right hquery]
      rcases findMatches_spec sorter hindices (Boost.toLower (queryOf (URLParser.init.parsed uri))) with
        ⟨hserves, results, hresults⟩ | ⟨⟨x, hx, hnot⟩, e, hfails, _⟩
      · exact iff_of_true ⟨_, by rw [hresults]; rfl⟩ hserves
      · refine iff_of_false ?_ fun h => hnot (h x hx)
        rw [hfails]
        rintro ⟨res, h⟩
        cases h
  · refine iff_of_false ?_ fun h => hshort h.1
    rintro ⟨res, h⟩
    obtain ⟨parser, hparser, _⟩ := Run.bind_eq_ok.mp h
    exact hshort ((URLParser.parse_iff _ uri).mp ⟨parser, hparser⟩)

theorem processQueryRequest_error (hindices : indices ≠ []) (hfit : ∀ x ∈ indices, x.OffsetsFit) {uri : Bytes}
    {e : Fault} (h : processQueryRequest sorter (indices.map CrawledFile.file) uri = .error e) :
    e = .outOfFuel ∨ e = .signedOverflow := by
  by_cases hshort : URLParser.ShortUrl uri
  · obtain ⟨found, heq⟩ := processQueryRequest_eq sorter hshort (indices.map CrawledFile.file)
    rw [heq] at h
    split at h
    · cases h
    · rcases Run.bind_eq_error.mp h with hfind | ⟨results, _, h⟩
      · rcases findMatches_spec sorter hindices (Boost.toLower (queryOf (URLParser.init.parsed uri))) with
          ⟨_, results, hresults⟩ | ⟨_, e', hfails, hover⟩
        · rw [hresults] at hfind
          cases hfind
        · rw [hfails, hover hfit] at hfind
          exact .inr (Except.error.inj hfind).symm
      · cases h
  · rw [processQueryRequest] at h
    rcases Run.bind_eq_error.mp h with hparse | ⟨parser, hparser, _⟩
    · exact .inl (URLParser.parse_error hparse)
    · exact absurd ((URLParser.parse_iff _ uri).mp ⟨parser, hparser⟩) hshort

end

/-- The parts of the URI are short enough for URIDecode; as much as is read of
a file has a length that an int can say; and all indices serve the query. -/
def Answerable (indices : List CrawledFile) (fs : FileSystem) (calls : ReadCalls) (baseDir uri : Bytes) : Prop :=
  URLParser.ShortUrl uri ∧
    if uri.take 8 = staticPrefix then FilesFit fs calls uri baseDir
    else queryOf (URLParser.init.parsed uri) = [] ∨ ∀ x ∈ indices,
      ServesQuery (queryWords (Boost.toLower (queryOf (URLParser.init.parsed uri)))) x

/-- When the indices can be opened, no Verify333 fails, whatever the request. -/
theorem request_keeps_verify333 (sorter : Sorter QueryResult.less) (x : CrawledFile) (xs : List CrawledFile)
    (hfit : ∀ y ∈ x :: xs, y.OffsetsFit) (baseDir : Bytes) (fs : FileSystem) (calls : ReadCalls) (request : Bytes) :
    processRequest ⟨sorter, (x :: xs).map CrawledFile.file, baseDir, fs, calls⟩
      (HttpConnection.parseRequest request) ≠ .error .verify333 := by
  rw [processRequest, startsWithStatic_eq, Run.ok_bind]
  intro h
  split at h
  · rcases processFileRequest_error h with he | he
    · cases he
    · cases he
  · rcases processQueryRequest_error sorter (List.cons_ne_nil x xs) hfit h with he | he
    · cases he
    · cases he

/-- Which requests are answered. -/
theorem request_answered_iff (sorter : Sorter QueryResult.less) (x : CrawledFile) (xs : List CrawledFile)
    (baseDir : Bytes) (fs : FileSystem) (calls : ReadCalls) (request : Bytes) :
    (∃ res, processRequest ⟨sorter, (x :: xs).map CrawledFile.file, baseDir, fs, calls⟩
      (HttpConnection.parseRequest request) = .ok res) ↔
        Answerable (x :: xs) fs calls baseDir (HttpConnection.uriOf request) := by
  rw [processRequest, HttpConnection.parseRequest_uri, startsWithStatic_eq, Run.ok_bind, Answerable]
  generalize HttpConnection.uriOf request = uri
  by_cases hstatic : uri.take 8 = staticPrefix
  · rw [if_pos hstatic, if_pos (decide_eq_true hstatic)]
    exact processFileRequest_ends_iff
  · rw [if_neg hstatic, if_neg (by simpa using hstatic)]
    exact processQueryRequest_ends_iff sorter (List.cons_ne_nil x xs) uri

/-- A file of 2^31 bytes has a length that is negative as an int. -/
theorem request_not_answered : ∃ x : CrawledFile, ∀ res,
    processRequest ⟨mergeSorter _, [x.file], OneFile.baseDir, OneFile.fileSystem (List.replicate (2 ^ 31) 0),
      OneFile.calls⟩ (HttpConnection.parseRequest (ascii "GET /static/a HTTP/1.1\r\n\r\n".toList)) ≠ .ok res := by
  obtain ⟨x, _⟩ := exists_crawledFile
  refine ⟨x, ?_⟩
  intro res hres
  have huri : HttpConnection.uriOf (ascii "GET /static/a HTTP/1.1\r\n\r\n".toList) = OneFile.uri := by
    decide +kernel
  have hstatic : OneFile.uri.take 8 = staticPrefix := by decide
  generalize hlong : List.replicate (2 ^ 31) (0 : UInt8) = long at hres
  have hnot : ¬FitsInt long.length := by
    rw [← hlong, List.length_replicate]
    decide
  have hanswer := processFileRequest_names (by simp [ReadCalls.Unchanging, OneFile.calls])
    (@OneFile.names long)
  rw [if_neg hnot] at hanswer
  rw [processRequest, HttpConnection.parseRequest_uri, huri, startsWithStatic_eq, Run.ok_bind,
    if_pos (decide_eq_true hstatic), hanswer] at hres
  cases hres

end HttpServer

end SearchEngine
