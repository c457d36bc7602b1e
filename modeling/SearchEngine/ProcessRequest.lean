import SearchEngine.FileReader
import SearchEngine.QueryProcessor

namespace SearchEngine.HttpServer

open HttpUtils StdString

def kThreegleStr : Bytes := ascii
  ("<html><head><title>333gle</title></head>\n" ++
    "<body>\n" ++
    "<center style=\"font-size:500%;\">\n" ++
    "<span style=\"position:relative;bottom:-0.33em;color:orange;\">3</span>" ++
    "<span style=\"color:red;\">3</span>" ++
    "<span style=\"color:gold;\">3</span>" ++
    "<span style=\"color:blue;\">g</span>" ++
    "<span style=\"color:green;\">l</span>" ++
    "<span style=\"color:red;\">e</span>\n" ++
    "</center>\n" ++
    "<p>\n" ++
    "<div style=\"height:20px;\"></div>\n" ++
    "<center>\n" ++
    "<form action=\"/query\" method=\"get\">\n" ++
    "<input type=\"text\" size=30 name=\"terms\" />\n" ++
    "<input type=\"submit\" value=\"Search\" />\n" ++
    "</form>\n" ++
    "</center><p>\n").toList

def staticPrefix : Bytes := ascii ['/', 's', 't', 'a', 't', 'i', 'c', '/']

def protocol : Bytes := ascii ['H', 'T', 'T', 'P', '/', '1', '.', '1']

/-- Before its setters are called. The response code has no value yet. -/
def emptyResponse : HttpResponse := ⟨[], 0, [], [], []⟩

def startsWithStatic (uri : Bytes) : Run Bool := do
  return (← substr uri 0 8) = staticPrefix

def contentTypeOf (extension : Bytes) : Bytes :=
  if extension = ascii ".html".toList || extension = ascii ".htm".toList then ascii "text/html".toList
  else if extension = ascii ".jpeg".toList || extension = ascii ".jpg".toList then ascii "image/jpeg".toList
  else if extension = ascii ".png".toList then ascii "image/png".toList
  else if extension = ascii ".txt".toList then ascii "text/plain".toList
  else if extension = ascii ".js".toList then ascii "text/javascript".toList
  else if extension = ascii ".css".toList then ascii "text/css".toList
  else if extension = ascii ".xml".toList then ascii "text/xml".toList
  else if extension = ascii ".gif".toList then ascii "image/gif".toList
  else ascii "text/plain".toList

def fileNameOf (path : Bytes) : Run Bytes := do
  if ← startsWithStatic path then substrFrom path 8 else return path

def extensionOf (fileName : Bytes) : Run Bytes :=
  match rfind fileName 46 with
  | some pos => substrFrom fileName pos
  | none => return []

/-- The file path starts with the base directory, and FileReader puts the base
directory in front of it once more. -/
def staticReader (baseDir fileName : Bytes) : FileReader := ⟨baseDir, baseDir ++ 47 :: fileName⟩

def processFileRequest (fs : FileSystem) (calls : ReadCalls) (uri baseDir : Bytes) : Run HttpResponse := do
  let parser ← URLParser.init.parse uri
  if parser.path.isEmpty then
    return { emptyResponse with responseCode := 400, message := ascii "Bad Request".toList }
  let fileName ← fileNameOf parser.path
  match ← (staticReader baseDir fileName).readFile fs calls with
  | some str =>
      let extension ← extensionOf fileName
      return ⟨protocol, 200, ascii "OK".toList, contentTypeOf extension, str⟩
  | none =>
      let escaped ← escapeHtml fileName
      return { emptyResponse with
        protocol := protocol
        responseCode := 404
        message := ascii "Not Found".toList
        body := ascii "<html><body>Couldn't find file \"".toList ++ escaped ++
          ascii "\"</body></html>\n".toList }

/-- The compare of a part of a string with another. -/
def comparesEqual (s : Bytes) (pos n : Nat) (t : Bytes) : Run Bool := do
  return (← substr s pos n) = t

/-- std::to_string -/
def decimalOf (n : Int) : Bytes :=
  if n < 0 then 45 :: HttpResponse.decimal n.natAbs else HttpResponse.decimal n.natAbs

/-- One match as a list item with a link. -/
def resultItem (result : QueryResult) : Run Bytes := do
  let escaped ← escapeHtml result.documentName
  let item (href : Bytes) : Bytes :=
    href ++ result.documentName ++ ascii "\">".toList ++ escaped ++ ascii "</a> [".toList ++
      decimalOf result.rank ++ ascii "]".toList ++ ascii "</li>\r\n".toList
  if ← comparesEqual result.documentName 0 5 (ascii "http:".toList) then
    return item (ascii "<li><a href=\"".toList)
  else return item (ascii "<li><a href=\"/static/".toList)

def resultItems : List QueryResult → Run Bytes
  | [] => return []
  | result :: results => do
      let item ← resultItem result
      let rest ← resultItems results
      return item ++ rest

def searchPage : Bytes := kThreegleStr ++ ascii "</body>\r\n".toList ++ ascii "</html>\r\n".toList

/-- What is appended to the page for the matches of a query. -/
def resultSection (query : Bytes) (results : List QueryResult) : Run Bytes := do
  let escaped ← escapeHtml query
  if results.length = 0 then
    return ascii "<p><br>\r\n".toList ++ ascii "No results found for <b>".toList ++ escaped ++
      ascii "</b>\r\n".toList ++ ascii "<p>\r\n".toList ++ ascii "\r\n".toList
  else
    let items ← resultItems results
    return ascii "<p><br>\r\n".toList ++ decimalOf results.length ++ ascii " results found for <b>".toList ++
      escaped ++ ascii "</b></p>\r\n".toList ++ ascii "<ul>\r\n".toList ++ items ++ ascii "</ul>\r\n".toList

/-- The terms of the query, with the white space around them trimmed. -/
def queryOf (parser : URLParser) : Bytes := Boost.trim (parser.arg (ascii "terms".toList))

def queryWords (query : Bytes) : List Bytes := Boost.split (fun b => b == 32 || b == 9) query

theorem queryWords_ne_nil (query : Bytes) : queryWords query ≠ [] := Boost.split_ne_nil _ query

/-- The matches of a query that is not empty. -/
def findMatches (sorter : Sorter QueryResult.less) (indices : List OpenFile) (query : Bytes) :
    Run (List QueryResult) := do
  let processor ← QueryProcessor.new indices false
  let (results, _) ← QueryProcessor.processQuery sorter processor (queryWords query)
  return results

def searchResults (sorter : Sorter QueryResult.less) (indices : List OpenFile) (query : Bytes) : Run Bytes := do
  let query := Boost.toLower query
  let results ← findMatches sorter indices query
  resultSection query results

def processQueryRequest (sorter : Sorter QueryResult.less) (indices : List OpenFile) (uri : Bytes) :
    Run HttpResponse := do
  let parser ← URLParser.init.parse uri
  let query := queryOf parser
  let found ← if query.isEmpty then pure [] else searchResults sorter indices query
  return ⟨protocol, 200, ascii "OK".toList, [], searchPage ++ found⟩

/-- What the server has at hand: its index files, its base directory, and the
file system below it. -/
structure Resources where
  sorter : Sorter QueryResult.less
  indices : List OpenFile
  baseDir : Bytes
  fs : FileSystem
  calls : ReadCalls

def processRequest (server : Resources) (req : HttpRequest) : Run HttpResponse := do
  if ← startsWithStatic req.uri then processFileRequest server.fs server.calls req.uri server.baseDir
  else processQueryRequest server.sorter server.indices req.uri

end SearchEngine.HttpServer
