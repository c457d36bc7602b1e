import SearchEngine.CrawlFileTree
import SearchEngine.TableValues
import SearchEngine.Library.OwnedHeap

/-! CrawlFileTree and the two calls that free its result, with the blocks they
allocate. A table and a list are one block each: what is inside is allocated
and freed by HashTable.c and LinkedList.c, and the node that LinkedList_Append
frees while it is in the list is none of these blocks. -/

namespace SearchEngine.CrawlMemory

open HeapProgram Dir
open FileParser (ASCII_UPPER_BOUND Pending cString isalpha payload)
open CrawlFileTree (Entry alphasort firstPass)

inductive Block
  | dir
  | entries
  | pathName
  | fileBuf
  | table
  | iterator
  | wordPositions
  | word
  | positions
  | wordPostings
  | docTable
  | docName
  | docId
  deriving DecidableEq

abbrev Program := HeapProgram Block Fault

section

variable {α V : Type}

abbrev deref (p : Ptr α) : Program α := HeapProgram.deref .badAccess p

abbrev free (p : Ptr α) : Program Unit := HeapProgram.free .badAccess p

/-- HashTable_Free hands each value to the function it is given. The chains and
their nodes are inside the block of the table. -/
def hashTableFree (valueFree : V → Program Unit) (table : Ptr (HashTable V)) : Program Unit := do
  let ht ← deref table
  let log ← lift (TableLedger.free ht .client)
  log.forM fun call => valueFree call.2
  free table

end

structure WordPositions where
  word : Ptr Bytes
  positions : Ptr (LinkedList UInt64)
  deriving DecidableEq

abbrev WordTable := HashTable (Ptr WordPositions)

def freeWordPositions (payload : Ptr WordPositions) : Program Unit := do
  let pos ← deref payload
  free pos.positions
  free pos.word
  free payload

def addWordPosition (tab : WordTable) (word : Bytes) (pos : Nat) : Program WordTable := do
  let hashKey := hashString word
  match ← lift (tab.find hashKey) with
  | some kv =>
      let wp ← deref kv.value
      let known ← deref wp.word
      lift (verify333 (known = word))
      let positions ← deref wp.positions
      return tab.writeValue hashKey
        (kv.value.store ⟨wp.word, wp.positions.store (positions.append (payload pos))⟩)
  | none =>
      let wp ← malloc .wordPositions ()
      let newstr ← malloc .word word
      let positions ← malloc .positions (LinkedList.allocate.append (payload pos))
      let (tab, _) ← lift (tab.insert ⟨hashKey, wp.store ⟨newstr, positions⟩⟩)
      return tab

def insertContent (tab : WordTable) (word : Option Pending) (pos : Nat) : Bytes → Program WordTable
  | [] => return tab
  | c :: rest => do
      if isalpha c then
        insertContent tab (some (Pending.extend word pos c)) (pos + 1) rest
      else
        match word with
        | none => insertContent tab none (pos + 1) rest
        | some w =>
            let tab ← addWordPosition tab w.letters w.start
            insertContent tab none (pos + 1) rest

/-- An empty text is the one result that leaves the contents to the caller. -/
def parseIntoWordPositionsTable (fileContents : Ptr Bytes) : Program (Option (Ptr WordTable)) := do
  let contents ← deref fileContents
  let content := cString contents
  let fileLen := toInt content.length
  if fileLen = 0 then return none
  if (content.take fileLen.toNat).any fun c => c = 0 || ASCII_UPPER_BOUND < c then
    free fileContents
    return none
  let tab ← malloc .table (← lift (HashTable.allocate 32))
  let ht ← insertContent tab.val none 0 content
  if ht.numElements = 0 then
    hashTableFree freeWordPositions (tab.store ht)
    free fileContents
    return none
  free fileContents
  return some (tab.store ht)

structure DocTable where
  idToName : Ptr (HashTable (Ptr Bytes))
  nameToId : Ptr (HashTable (Ptr UInt64))
  maxId : UInt64

def docTableAllocate : Program (Ptr DocTable) := do
  let dt ← malloc .docTable ()
  let idToName ← malloc .table (← lift (HashTable.allocate DocTable.HASHTABLE_INITIAL_NUM_BUCKETS))
  let nameToId ← malloc .table (← lift (HashTable.allocate DocTable.HASHTABLE_INITIAL_NUM_BUCKETS))
  return dt.store ⟨idToName, nameToId, 1⟩

def docTableFree (table : Ptr DocTable) : Program Unit := do
  let dt ← deref table
  hashTableFree free dt.idToName
  hashTableFree free dt.nameToId
  free table

def docTableAdd (table : Ptr DocTable) (docName : Bytes) : Program (Ptr DocTable × UInt64) := do
  let dt ← deref table
  let nameToId ← deref dt.nameToId
  match ← lift (nameToId.find (hashString docName)) with
  | some kv =>
      let res ← deref kv.value
      return (table, res)
  | none =>
      let docCopy ← malloc .docName docName
      let docId ← malloc .docId dt.maxId
      let idToName ← deref dt.idToName
      let (idToName, _) ← lift (idToName.insert ⟨docId.val, docCopy⟩)
      let (nameToId, _) ← lift (nameToId.insert ⟨hashString docName, docId⟩)
      return (table.store ⟨dt.idToName.store idToName, dt.nameToId.store nameToId, dt.maxId + 1⟩, docId.val)

structure WordPostings where
  word : Ptr Bytes
  postings : Ptr (HashTable (Ptr Postings))

abbrev MemIndex := HashTable (Ptr WordPostings)

def memIndexAllocate : Program (Ptr MemIndex) := do
  let index ← malloc .table (← lift (HashTable.allocate MemIndex.initBuckets))
  return index

def valueFree (ptr : Ptr WordPostings) : Program Unit := do
  let wp ← deref ptr
  free wp.word
  hashTableFree free wp.postings
  free ptr

def memIndexFree (index : Ptr MemIndex) : Program Unit := hashTableFree valueFree index

/-- The caller gives the word away: it becomes that of a new WordPostings, or
is freed. -/
def findOrInsertWord (index : MemIndex) (word : Ptr Bytes) : Program (MemIndex × Ptr WordPostings) := do
  let text ← deref word
  match ← lift (index.find (hashString text)) with
  | none =>
      let wp ← malloc .wordPostings ()
      let postings ← malloc .table (← lift (HashTable.allocate MemIndex.initBuckets))
      let (index, _) ← lift (index.insert ⟨hashString text, wp.store ⟨word, postings⟩⟩)
      return (index, wp.store ⟨word, postings⟩)
  | some kv =>
      let wp ← deref kv.value
      let known ← deref wp.word
      lift (verify333 (known = text))
      free word
      return (index, kv.value)

def addPostingList (index : Ptr MemIndex) (word : Ptr Bytes) (docId : DocID) (postings : Ptr Postings) :
    Program (Ptr MemIndex) := do
  let key := hashString (← deref word)
  let (ht, ptr) ← findOrInsertWord (← deref index) word
  let wp ← deref ptr
  let table ← deref wp.postings
  let found ← lift (table.find docId)
  lift (verify333 found.isNone)
  let (table, _) ← lift (table.insert ⟨docId, postings⟩)
  return index.store (ht.writeValue key (ptr.store ⟨wp.word, wp.postings.store table⟩))

structure Crawl where
  docTable : Ptr DocTable
  index : Ptr MemIndex

def readFileToString (contents : Bytes) : Program (Ptr Bytes × Int) := do
  let (buf, size) ← lift (CrawlFileTree.readFileToString contents)
  let buf ← malloc .fileBuf buf
  return (buf, size)

def moveWords (docId : DocID) : Nat → Ptr WordTable → Ptr HTIterator → Ptr MemIndex →
    Program (Ptr WordTable × Ptr MemIndex)
  | 0, _, _, _ => lift (.error .outOfFuel)
  | fuel + 1, tab, it, index => do
      let ht ← deref tab
      let pos ← deref it
      if ← lift (HTIterator.isValid ht pos) then
        match ← lift (HTIterator.remove ht pos) with
        | (_, _, none) => lift (.error .verify333)
        | (ht, pos, some kv) =>
            let wp ← deref kv.value
            let index ← addPostingList index wp.word docId wp.positions
            free kv.value
            moveWords docId fuel (tab.store ht) (it.store pos) index
      else return (tab, index)

def handleFile (s : Crawl) (file : File) : Program Crawl := do
  let (fileBuf, fileLen) ← readFileToString file.contents
  lift (verify333 (0 < fileLen))
  match ← parseIntoWordPositionsTable fileBuf with
  | none => return s
  | some tab =>
      let (docTable, docId) ← docTableAdd s.docTable file.path
      let ht ← deref tab
      let it ← malloc .iterator (← lift (HTIterator.allocate ht))
      let (tab, index) ← moveWords docId (ht.numElements + 1) tab it s.index
      free it
      hashTableFree freeWordPositions tab
      return ⟨docTable, index⟩

/-- The array of a directory's entries is moved when it is full. -/
def growEntries (i entriesCapacity : Nat) (entries : Ptr Unit) : Program (Ptr Unit × Nat) := do
  if i = entriesCapacity then
    free entries
    let entries ← malloc .entries ()
    return (entries, 2 * entriesCapacity)
  else return (entries, entriesCapacity)

/-- The addresses of the paths are given out in the order of the second pass:
which of them malloc gives to which path makes no difference. -/
def recordEntries : Nat → Nat → Ptr Unit → List Entry → Program (Ptr Unit × List (Ptr Entry))
  | _, _, entries, [] => return (entries, [])
  | i, entriesCapacity, entries, e :: es => do
      let (entries, entriesCapacity) ← growEntries i entriesCapacity entries
      let path ← malloc .pathName e
      let (entries, paths) ← recordEntries (i + 1) entriesCapacity entries es
      return (entries, path :: paths)

def handleEntry (handleSubDir : Bytes → Dir → Crawl → Program Crawl) (s : Crawl) (path : Ptr Entry) :
    Program Crawl := do
  let e ← deref path
  match e.target with
  | .file contents =>
      let s ← handleFile s ⟨e.pathName, contents⟩
      free path
      return s
  | .dir d =>
      let subDir ← malloc .dir ()
      let s ← handleSubDir e.pathName d s
      free subDir
      free path
      return s

variable (qsort : Sorter fun e1 e2 => alphasort e1 e2 < 0)

def handleDir : Nat → Bytes → Dir → Crawl → Program Crawl
  | 0, _, _, _ => lift (.error .outOfFuel)
  | depth + 1, dirPath, d, s => do
      let entries ← malloc .entries ()
      let (entries, paths) ← recordEntries 0 16 entries (qsort.sort (firstPass dirPath 0 d))
      let s ← paths.foldlM (handleEntry (handleDir depth)) s
      free entries
      return s

def crawlFileTree (rootDir : Bytes) (root : Option Target) : Program (Option Crawl) :=
  match root with
  | none => return none
  | some (.file _) => return none
  | some (.dir d) => do
      let rd ← malloc .dir ()
      let docTable ← docTableAllocate
      let index ← memIndexAllocate
      let s ← handleDir qsort (d.depth + 1) rootDir d ⟨docTable, index⟩
      free rd
      return some s

/-- What both programs do with a tree, apart from what they read of it. -/
def crawlAndFree (rootDir : Bytes) (root : Option Target) : Program Bool := do
  match ← crawlFileTree qsort rootDir root with
  | none => return false
  | some s =>
      docTableFree s.docTable
      memIndexFree s.index
      return true

end SearchEngine.CrawlMemory
