import SearchEngine.FileIndexReader
import SearchEngine.Library.Sorter

namespace SearchEngine

open FileProgram

structure QueryResult where
  documentName : Bytes
  rank : Int
  deriving DecidableEq

/-- operator<, which puts larger ranks first. -/
def QueryResult.less (lhs rhs : QueryResult) : Bool := lhs.rank > rhs.rank

structure IndexReaders where
  dtr : HashTableReader
  itr : HashTableReader
  file : OpenFile

/-- The last field counts the DocIDTableReader objects that LookupWord made
and nobody deleted. An array longer than an int can say would need more
descriptors than there are ints. -/
structure QueryProcessor where
  readers : List IndexReaders
  live : Nat

namespace QueryProcessor

def openIndices (validate : Bool) : List OpenFile → Run (List IndexReaders)
  | [] => return []
  | file :: files => do
      let ((dtr, itr), file) ← (FileIndexReader.openTables validate).run OpenFile.handle file
      let rest ← openIndices validate files
      return ⟨dtr, itr, file⟩ :: rest

def new (indexList : List OpenFile) (validate : Bool) : Run QueryProcessor := do
  verify333 (indexList ≠ [])
  let readers ← openIndices validate indexList
  return ⟨readers, 0⟩

/-- The inner loop of MergeResult: it stops at the first header of the same
document. -/
def mergeHeader (header1 : DocIDElementHeader) : List DocIDElementHeader → Run (Option DocIDElementHeader)
  | [] => return none
  | header2 :: list2 =>
      if header1.docId = header2.docId then do
        let numPositions ← intSum header1.numPositions header2.numPositions
        return some ⟨header1.docId, numPositions⟩
      else mergeHeader header1 list2

def mergeResult : List DocIDElementHeader → List DocIDElementHeader → Run (List DocIDElementHeader)
  | [], _ => return []
  | header1 :: list1, list2 => do
      let curr ← mergeHeader header1 list2
      let result ← mergeResult list1 list2
      return curr.toList ++ result

structure Candidates where
  isValid : Bool
  idList : List DocIDElementHeader
  live : Nat

def intersectWords (itr : HashTableReader) : List Bytes → List DocIDElementHeader → FileProgram Candidates
  | [], idList => return ⟨true, idList, 0⟩
  | word :: query, idList => do
      match ← IndexTableReader.lookupWord itr word with
      | none => return ⟨false, idList, 0⟩
      | some didtr =>
          let idListTmp ← DocIDTableReader.getDocIDList didtr
          let idList ← ofRun (mergeResult idList idListTmp)
          -- this break leaves the loop before the reader is deleted
          if idList.length = 0 then return ⟨true, idList, 1⟩
          else intersectWords itr query idList

def documentResults (dtr : HashTableReader) : List DocIDElementHeader → FileProgram (List QueryResult)
  | [] => return []
  | header :: idList => do
      match ← DocTableReader.lookupDocID dtr header.docId with
      | none => .fail .verify333
      | some documentName =>
          let results ← documentResults dtr idList
          return ⟨documentName, header.numPositions⟩ :: results

def queryIndex (dtr itr : HashTableReader) (word : Bytes) (query : List Bytes) :
    FileProgram (List QueryResult × Nat) := do
  match ← IndexTableReader.lookupWord itr word with
  | none => return ([], 0)
  | some didtr =>
      let idList ← DocIDTableReader.getDocIDList didtr
      let candidates ← intersectWords itr query idList
      let results ← if candidates.isValid then documentResults dtr candidates.idList else pure []
      return (results, candidates.live)

def queryIndices (word : Bytes) (query : List Bytes) :
    List IndexReaders → Run (List QueryResult × Nat × List IndexReaders)
  | [] => return ([], 0, [])
  | r :: readers => do
      let ((results, live), file) ← (queryIndex r.dtr r.itr word query).run OpenFile.handle r.file
      let (more, liveMore, readers) ← queryIndices word query readers
      return (results ++ more, live + liveMore, { r with file := file } :: readers)

def processQuery (sorter : Sorter QueryResult.less) (qp : QueryProcessor) (query : List Bytes) :
    Run (List QueryResult × QueryProcessor) :=
  match query with
  | [] => .error .verify333
  | word :: query => do
      let (finalResult, live, readers) ← queryIndices word query qp.readers
      return (sorter.sort finalResult, ⟨readers, qp.live + live⟩)

end QueryProcessor

end SearchEngine
