import SearchEngine.HttpServer
import SearchEngine.RequestSafety
import SearchEngine.ResponseFraming
import SearchEngine.ShellSessions

/-! What the server's query pages list of the files of directory trees. -/

namespace SearchEngine.HttpServer

open BuildFileIndex CrawlFileTree Framing HttpConnection HttpUtils QueryProcessor StdString

section

variable (sorter : Sorter QueryResult.less) {sites : List BuiltIndex}

end

end SearchEngine.HttpServer
