import SearchEngine.CrawlMemory

/-! What each function of a crawl owns when it returns. -/

namespace SearchEngine.CrawlMemory

open HeapProgram HashTable Dir
open FileParser (Pending cString isalpha payload)

abbrev Held := Multiset (Nat × Block)

section

variable {V : Type} {cells : V → Held} {valueFree : V → Program Unit}

def tableCells (cells : V → Held) (table : Ptr (HashTable V)) : Held := table.cell .table + table.val.total cells

theorem hashTableFree_frees (hfree : ∀ v, Frees (cells v) (valueFree v)) (table : Ptr (HashTable V)) :
    Frees (tableCells cells table) (hashTableFree valueFree table) := by
  refine Frees.deref (by simp [tableCells]) ?_
  rw [TableLedger.free_eq, lift_ok_bind]
  have hcalls := Frees.forM (fun call : TableLedger.ValueFreeFn × V => hfree call.2)
    (table.val.pairs.map fun kv => (.client, kv.value))
  rw [List.map_map] at hcalls
  rw [tableCells, add_comm]
  exact hcalls.seq (frees_cell table)

end

section Words

namespace WordPositions

def erase (wp : Ptr WordPositions) : SearchEngine.WordPositions := ⟨wp.val.word.val, wp.val.positions.val⟩

def cells (wp : Ptr WordPositions) : Held :=
  wp.val.positions.cell .positions + (wp.val.word.cell .word + wp.cell .wordPositions)

end WordPositions

/-- The words of one file, in the table that parsing it fills. -/
def words : Owner Block WordTable SearchEngine.WordTable where
  erase := HashTable.map WordPositions.erase
  cells := total WordPositions.cells
  Good := Loaded

theorem freeWordPositions_frees (payload : Ptr WordPositions) :
    Frees (WordPositions.cells payload) (freeWordPositions payload) := by
  refine Frees.deref (by simp [WordPositions.cells]) ?_
  exact (frees_cell _).seq ((frees_cell _).seq (frees_cell _))

theorem addWordPosition_follows (tab : WordTable) (hload : tab.Loaded) (word : Bytes) (pos : Nat) (rest : Held) :
    Follows (words.cells tab + rest) (addWordPosition tab word pos)
      (FileParser.addWordPosition (words.erase tab) word pos) (words.Post rest) := by
  unfold addWordPosition FileParser.addWordPosition
  simp only [words, find_eq, lookup_map, lift_ok_bind, Run.ok_bind]
  cases hlook : tab.lookup (hashString word) with
  | none =>
      refine Follows.malloc fun wp hwp => Follows.malloc fun newstr hnewstr => Follows.malloc fun positions hpos => ?_
      refine Follows.lift (mapInserted WordPositions.erase) ?_ ?_
      · rw [← insert_map]
        simp [HTKeyValue.map, WordPositions.erase, hnewstr, hpos]
      · rintro ⟨tab', old⟩ hins
        obtain ⟨_, hload', htotal⟩ := insert_new_total WordPositions.cells hload hlook hins
        refine Follows.pure ⟨rfl, hload', ?_⟩
        change _ = tab'.total _ + rest
        simp only [htotal, WordPositions.cells, Ptr.val_store, Ptr.cell_store]
        abel
  | some wp =>
      obtain ⟨others, hothers⟩ := total_of_lookup WordPositions.cells hlook
      refine Follows.deref (by simp [hothers, WordPositions.cells]) ?_
      refine Follows.deref (by simp [hothers, WordPositions.cells]) ?_
      refine Follows.lift id (id_map _).symm ?_
      intro _ _
      refine Follows.deref (by simp [hothers, WordPositions.cells]) ?_
      have hmap := writeValue_map WordPositions.erase tab (hashString word)
        (wp.store ⟨wp.val.word, wp.val.positions.store (wp.val.positions.val.append (payload pos))⟩)
      have htotal := writeValue_total WordPositions.cells hlook
        (wp.store ⟨wp.val.word, wp.val.positions.store (wp.val.positions.val.append (payload pos))⟩)
      refine Follows.pure ⟨hmap.symm, writeValue_loaded hlook _ hload, ?_⟩
      exact congrArg (· + rest) (add_left_cancel htotal).symm

theorem insertContent_follows (content : Bytes) (tab : WordTable) (hload : tab.Loaded) (word : Option Pending)
    (pos : Nat) (rest : Held) :
    Follows (words.cells tab + rest) (insertContent tab word pos content)
      (FileParser.insertContent (words.erase tab) word pos content) (words.Post rest) := by
  induction content generalizing tab word pos with
  | nil => exact Follows.pure ⟨rfl, hload, rfl⟩
  | cons c content ih =>
      unfold insertContent FileParser.insertContent
      by_cases hc : isalpha c = true
      · rw [if_pos hc, if_pos hc]
        exact ih tab hload _ _
      · rw [if_neg hc, if_neg hc]
        cases word with
        | none => exact ih tab hload none _
        | some w =>
            refine Follows.bind (addWordPosition_follows tab hload w.letters w.start rest) ?_
            rintro tab' _ held ⟨rfl, hload', rfl⟩
            exact ih tab' hload' none _

/-- The words of a file, if there are any. -/
def parsed : Owner Block (Option (Ptr WordTable)) (Option SearchEngine.WordTable) where
  erase := Option.map fun tab => words.erase tab.val
  cells tab := (tab.map (tableCells WordPositions.cells)).getD 0
  Good _ := True

/-- The contents of a file, where parsing them does not free them. -/
def leftover (fileContents : Ptr Bytes) : Held :=
  if cString fileContents.val = [] then fileContents.cell .fileBuf else 0

theorem parseIntoWordPositionsTable_follows (fileContents : Ptr Bytes) (hlen : fileContents.val.length < 2 ^ 31)
    (rest : Held) :
    Follows (fileContents.cell .fileBuf + rest) (parseIntoWordPositionsTable fileContents)
      (FileParser.parseIntoWordPositionsTable fileContents.val) (parsed.Post (leftover fileContents + rest)) := by
  unfold parseIntoWordPositionsTable FileParser.parseIntoWordPositionsTable
  refine Follows.deref (by simp) ?_
  have hcut : (cString fileContents.val).length < 2 ^ 31 :=
    Nat.lt_of_le_of_lt (List.takeWhile_sublist _).length_le hlen
  have hempty : toInt (cString fileContents.val).length = 0 ↔ cString fileContents.val = [] := by
    rw [toInt_of_lt hcut, Int.natCast_eq_zero, List.length_eq_zero_iff]
  simp only [hempty]
  by_cases hnil : cString fileContents.val = []
  · rw [if_pos hnil, if_pos hnil]
    refine Follows.pure ⟨rfl, trivial, ?_⟩
    rw [leftover, if_pos hnil]
    exact (zero_add _).symm
  · have hleft : leftover fileContents = 0 := if_neg hnil
    rw [if_neg hnil, if_neg hnil, hleft, zero_add]
    by_cases hascii : ((cString fileContents.val).take (toInt (cString fileContents.val).length).toNat).any
        fun c => c = 0 || FileParser.ASCII_UPPER_BOUND < c
    · rw [if_pos hascii, if_pos hascii]
      refine Follows.free .fileBuf rest rfl ?_
      exact Follows.pure ⟨rfl, trivial, (zero_add _).symm⟩
    · rw [if_neg hascii, if_neg hascii]
      refine Follows.lift (HashTable.map WordPositions.erase) (allocate_map _ _).symm ?_
      intro t halloc
      obtain ⟨hzero, hloaded⟩ := allocate_empty halloc
      refine Follows.malloc fun tab htab => ?_
      subst htab
      have hnone : words.cells tab.val = 0 := total_of_empty _ hzero
      have hfill := insertContent_follows (cString fileContents.val) tab.val hloaded none 0
        (tab.cell .table + (fileContents.cell .fileBuf + rest))
      rw [hnone, zero_add] at hfill
      refine Follows.bind hfill ?_
      rintro ht _ held ⟨rfl, _, rfl⟩
      by_cases hnum : ht.numElements = 0
      · have hnum' : (words.erase ht).numElements = 0 := hnum
        rw [if_pos hnum, if_pos hnum']
        refine Follows.frees (fileContents.cell .fileBuf + rest)
          (hashTableFree_frees freeWordPositions_frees (tab.store ht)) ?_ ?_
        · simp only [words, tableCells, Ptr.cell_store, Ptr.val_store]
          abel
        · refine Follows.free .fileBuf rest rfl ?_
          exact Follows.pure ⟨rfl, trivial, (zero_add _).symm⟩
      · have hnum' : ¬(words.erase ht).numElements = 0 := hnum
        rw [if_neg hnum, if_neg hnum']
        refine Follows.free .fileBuf (tableCells WordPositions.cells (tab.store ht) + rest) ?_ ?_
        · simp only [words, tableCells, Ptr.cell_store, Ptr.val_store]
          abel
        · exact Follows.pure ⟨rfl, trivial, rfl⟩

end Words

section Documents

namespace DocTable

def erase (table : Ptr DocTable) : SearchEngine.DocTable where
  idToName := table.val.idToName.val.map Ptr.val
  nameToId := table.val.nameToId.val.map Ptr.val
  maxId := table.val.maxId

def cells (table : Ptr DocTable) : Held :=
  tableCells (Ptr.cell · .docName) table.val.idToName +
    (tableCells (Ptr.cell · .docId) table.val.nameToId + table.cell .docTable)

end DocTable

def docs : Owner Block (Ptr DocTable) SearchEngine.DocTable where
  erase := DocTable.erase
  cells := DocTable.cells
  Good table := ∃ names, (DocTable.erase table).Registers names

theorem docTableFree_frees (table : Ptr DocTable) : Frees (docs.cells table) (docTableFree table) := by
  refine Frees.deref (by simp [docs, DocTable.cells]) ?_
  exact (hashTableFree_frees (fun name => frees_cell name) _).seq
    ((hashTableFree_frees (fun docId => frees_cell docId) _).seq (frees_cell table))

theorem docTableAllocate_follows (rest : Held) :
    Follows rest docTableAllocate SearchEngine.DocTable.allocate (docs.Post rest) := by
  have hfollows : Follows rest docTableAllocate SearchEngine.DocTable.allocate
      fun a b held => b = docs.erase a ∧ held = docs.cells a + rest := by
    refine Follows.malloc fun dt hdt => ?_
    refine Follows.lift (HashTable.map Ptr.val) (allocate_map _ _).symm ?_
    intro t halloc
    refine Follows.malloc fun idToName hid => ?_
    refine Follows.lift (HashTable.map Ptr.val) (allocate_map _ _).symm ?_
    intro t' halloc'
    refine Follows.malloc fun nameToId hname => ?_
    subst hid hname
    refine Follows.pure ⟨rfl, ?_⟩
    simp only [docs, DocTable.cells, tableCells, Ptr.val_store, Ptr.cell_store,
      total_of_empty _ (allocate_empty halloc).1, total_of_empty _ (allocate_empty halloc').1]
    abel
  refine hfollows.returned.mono ?_
  rintro a _ held ⟨⟨rfl, rfl⟩, halloc⟩
  obtain ⟨table, halloc', hreg⟩ := SearchEngine.DocTable.allocate_registers
  obtain rfl : table = docs.erase a := Except.ok.inj (halloc'.symm.trans halloc)
  exact ⟨rfl, ⟨[], hreg⟩, rfl⟩

theorem docTableAdd_follows (table : Ptr DocTable) (hgood : docs.Good table) (docName : Bytes) (rest : Held) :
    Follows (docs.cells table + rest) (docTableAdd table docName) ((docs.erase table).add docName)
      fun a b held => b.2 = a.2 ∧ docs.Post rest a.1 b.1 held := by
  obtain ⟨names, hreg⟩ := hgood
  have hfollows : Follows (docs.cells table + rest) (docTableAdd table docName) ((docs.erase table).add docName)
      fun a b held => b = (docs.erase a.1, a.2) ∧ held = docs.cells a.1 + rest := by
    unfold docTableAdd SearchEngine.DocTable.add
    refine Follows.deref (by simp [docs, DocTable.cells]) ?_
    refine Follows.deref (by simp [docs, DocTable.cells, tableCells]) ?_
    simp only [docs, DocTable.erase, find_eq, lookup_map, lift_ok_bind, Run.ok_bind]
    cases hlook : table.val.nameToId.val.lookup (hashString docName) with
    | some docId =>
        obtain ⟨others, hothers⟩ := total_of_lookup (Ptr.cell · Block.docId) hlook
        refine Follows.deref (by simp [DocTable.cells, tableCells, hothers]) ?_
        exact Follows.pure ⟨rfl, rfl⟩
    | none =>
        have hfresh : table.val.idToName.val.lookup table.val.maxId = none := by
          have hnone := hreg.fresh
          simp only [DocTable.erase, lookup_map, Option.map_eq_none_iff] at hnone
          exact hnone
        refine Follows.malloc fun docCopy hcopy => Follows.malloc fun docId hid => ?_
        subst hcopy
        refine Follows.deref (by simp [DocTable.cells, tableCells]) ?_
        rw [hid]
        refine Follows.lift (mapInserted Ptr.val) (insert_map Ptr.val _ ⟨_, docCopy⟩) ?_
        rintro ⟨idToName, old⟩ hins
        refine Follows.lift (mapInserted Ptr.val) ?_ ?_
        · rw [← insert_map, ← hid]
          rfl
        rintro ⟨nameToId, old'⟩ hins'
        obtain ⟨_, _, htotal⟩ := insert_new_total (Ptr.cell · Block.docName) hreg.ids.loaded hfresh hins
        obtain ⟨_, _, htotal'⟩ := insert_new_total (Ptr.cell · Block.docId) hreg.hashes.loaded hlook hins'
        refine Follows.pure ⟨rfl, ?_⟩
        simp only [DocTable.cells, tableCells, Ptr.val_store, Ptr.cell_store, htotal, htotal']
        abel
  refine hfollows.returned.mono ?_
  rintro ⟨a, docId⟩ _ held ⟨⟨rfl, rfl⟩, hadd⟩
  refine ⟨rfl, rfl, ?_, rfl⟩
  rcases SearchEngine.DocTable.add_ok hreg hadd with ⟨hsame, _⟩ | ⟨_, _, hreg'⟩
  · rw [← hsame] at hreg
    exact ⟨names, hreg⟩
  · exact ⟨_, hreg'⟩

end Documents

section Index

namespace WordPostings

def erase (wp : Ptr WordPostings) : SearchEngine.WordPostings :=
  ⟨wp.val.word.val, wp.val.postings.val.map Ptr.val⟩

def cells (wp : Ptr WordPostings) : Held :=
  wp.val.word.cell .word + (tableCells (Ptr.cell · .positions) wp.val.postings + wp.cell .wordPostings)

end WordPostings

/-- Every table is one that insertions have filled. -/
structure MemIndex.Loaded (index : MemIndex) : Prop where
  words : HashTable.Loaded index
  postings : ∀ key wp, index.lookup key = some wp → wp.val.postings.val.Loaded

def index : Owner Block (Ptr MemIndex) SearchEngine.MemIndex where
  erase index := HashTable.map WordPostings.erase index.val
  cells := tableCells WordPostings.cells
  Good index := MemIndex.Loaded index.val

theorem valueFree_frees (ptr : Ptr WordPostings) : Frees (WordPostings.cells ptr) (valueFree ptr) := by
  refine Frees.deref (by simp [WordPostings.cells]) ?_
  exact (frees_cell _).seq ((hashTableFree_frees (fun postings => frees_cell postings) _).seq (frees_cell ptr))

theorem memIndexFree_frees (ix : Ptr MemIndex) : Frees (index.cells ix) (memIndexFree ix) :=
  hashTableFree_frees valueFree_frees ix

theorem memIndexAllocate_follows (rest : Held) :
    Follows rest memIndexAllocate SearchEngine.MemIndex.allocate (index.Post rest) := by
  have hrun : (SearchEngine.MemIndex.allocate : Run SearchEngine.MemIndex) =
      SearchEngine.MemIndex.allocate >>= fun t => .ok t := (bind_pure _).symm
  rw [hrun]
  refine Follows.lift (HashTable.map WordPostings.erase) (allocate_map _ _).symm ?_
  intro t halloc
  obtain ⟨hzero, hloaded⟩ := allocate_empty halloc
  rw [← bind_pure (malloc Block.table t)]
  refine Follows.malloc fun ix hix => ?_
  subst hix
  refine Follows.pure ⟨rfl, ⟨hloaded, ?_⟩, ?_⟩
  · intro key wp hl
    rw [lookup_of_numElements_zero hzero] at hl
    cases hl
  · simp only [index, tableCells, total_of_empty _ hzero, add_zero]

/-- The WordPostings that are handed out are those of the index. -/
structure WordFound (key : UInt64) (rest : Held) (a : MemIndex × Ptr WordPostings)
    (b : SearchEngine.MemIndex × SearchEngine.WordPostings) (held : Held) : Prop where
  same : b = (HashTable.map WordPostings.erase a.1, WordPostings.erase a.2)
  loaded : MemIndex.Loaded a.1
  found : a.1.lookup key = some a.2
  held : held = a.1.total WordPostings.cells + rest

theorem findOrInsertWord_follows (ix : MemIndex) (hgood : MemIndex.Loaded ix) (word : Ptr Bytes) (rest : Held) :
    Follows (ix.total WordPostings.cells + (word.cell .word + rest)) (findOrInsertWord ix word)
      (SearchEngine.MemIndex.findOrInsertWord (HashTable.map WordPostings.erase ix) word.val)
      (WordFound (hashString word.val) rest) := by
  unfold findOrInsertWord SearchEngine.MemIndex.findOrInsertWord
  refine Follows.deref (by simp) ?_
  simp only [find_eq, lookup_map, lift_ok_bind, Run.ok_bind]
  cases hlook : ix.lookup (hashString word.val) with
  | none =>
      refine Follows.malloc fun wp hwp => ?_
      refine Follows.lift (HashTable.map Ptr.val) (allocate_map _ _).symm ?_
      intro t halloc
      obtain ⟨hzero, hloaded⟩ := allocate_empty halloc
      refine Follows.malloc fun postings hpostings => ?_
      subst hpostings
      refine Follows.lift (mapInserted WordPostings.erase)
        (insert_map WordPostings.erase ix ⟨_, wp.store ⟨word, postings⟩⟩) ?_
      rintro ⟨ix', old⟩ hins
      obtain ⟨hspec, hload', htotal⟩ := insert_new_total WordPostings.cells hgood.words hlook hins
      refine Follows.pure ⟨rfl, ⟨hload', ?_⟩, ?_, ?_⟩
      · intro key wp' hl
        rw [hspec.lookup] at hl
        split at hl
        · obtain rfl := Option.some.inj hl
          exact hloaded
        · exact hgood.postings key wp' hl
      · rw [hspec.lookup, if_pos rfl]
      · rw [htotal]
        simp only [WordPostings.cells, tableCells, Ptr.val_store, Ptr.cell_store, total_of_empty _ hzero]
        abel
  | some wp =>
      obtain ⟨others, hothers⟩ := total_of_lookup WordPostings.cells hlook
      refine Follows.deref (by simp [hothers, WordPostings.cells]) ?_
      refine Follows.deref (by simp [hothers, WordPostings.cells]) ?_
      refine Follows.lift id (id_map _).symm ?_
      intro _ _
      refine Follows.free .word (ix.total WordPostings.cells + rest) ?_ ?_
      · abel
      · exact Follows.pure ⟨rfl, hgood, hlook, rfl⟩

theorem addPostingList_follows (ix : Ptr MemIndex) (hgood : index.Good ix) (word : Ptr Bytes) (docId : DocID)
    (postings : Ptr Postings) (rest : Held) :
    Follows (index.cells ix + (word.cell .word + (postings.cell .positions + rest)))
      (addPostingList ix word docId postings)
      ((index.erase ix).addPostingList word.val docId postings.val) (index.Post rest) := by
  unfold addPostingList SearchEngine.MemIndex.addPostingList
  refine Follows.deref (by simp) ?_
  refine Follows.deref (by simp [index, tableCells]) ?_
  have hword := findOrInsertWord_follows ix.val hgood word (ix.cell .table + (postings.cell .positions + rest))
  have hcells : index.cells ix + (word.cell .word + (postings.cell .positions + rest)) =
      ix.val.total WordPostings.cells + (word.cell .word + (ix.cell .table + (postings.cell .positions + rest))) := by
    simp only [index, tableCells]
    abel
  rw [← hcells] at hword
  refine Follows.bind hword ?_
  rintro ⟨ht, ptr⟩ _ held ⟨rfl, hloaded, hfound, rfl⟩
  obtain ⟨others, hothers⟩ := total_of_lookup WordPostings.cells hfound
  dsimp only at hloaded hfound hothers ⊢
  refine Follows.deref (by simp [hothers, WordPostings.cells]) ?_
  refine Follows.deref (by simp [hothers, WordPostings.cells, tableCells]) ?_
  simp only [WordPostings.erase, find_eq, lookup_map, lift_ok_bind, Run.ok_bind, Option.map_map, Option.isNone_map]
  refine Follows.lift id (id_map _).symm ?_
  intro _ hver
  have hnew : ptr.val.postings.val.lookup docId = none := by
    by_contra hne
    obtain ⟨p, hp⟩ := Option.ne_none_iff_exists'.mp hne
    simp [hp] at hver
  refine Follows.lift (mapInserted Ptr.val) (insert_map Ptr.val _ ⟨docId, postings⟩) ?_
  rintro ⟨table, old⟩ hins
  obtain ⟨_, hload', htotal⟩ :=
    insert_new_total (Ptr.cell · Block.positions) (hloaded.postings _ _ hfound) hnew hins
  have hmap := writeValue_map WordPostings.erase ht (hashString word.val)
    (ptr.store ⟨ptr.val.word, ptr.val.postings.store table⟩)
  have hwrite := writeValue_total WordPostings.cells hfound
    (ptr.store ⟨ptr.val.word, ptr.val.postings.store table⟩)
  refine Follows.pure ⟨hmap.symm, ⟨writeValue_loaded hfound _ hloaded.words, ?_⟩, ?_⟩
  · intro key wp hl
    rw [Ptr.val_store, (writeValue_spec (Option.isSome_of_eq_some hfound) _).1] at hl
    split at hl
    · obtain rfl := Option.some.inj hl
      exact hload'
    · exact hloaded.postings key wp hl
  · have hcell : WordPostings.cells (ptr.store ⟨ptr.val.word, ptr.val.postings.store table⟩) =
        WordPostings.cells ptr + postings.cell .positions := by
      simp only [WordPostings.cells, tableCells, Ptr.val_store, Ptr.cell_store, htotal]
      abel
    rw [hcell, add_assoc] at hwrite
    simp only [index, tableCells, Ptr.val_store, Ptr.cell_store, add_left_cancel hwrite]
    abel

end Index

section Files

/-- The documents and the index of a crawl. -/
def crawl : Owner Block Crawl CrawlFileTree.Crawl where
  erase s := ⟨docs.erase s.docTable, index.erase s.index⟩
  cells s := docs.cells s.docTable + index.cells s.index
  Good s := docs.Good s.docTable ∧ index.Good s.index

def posting (docId : DocID) (kv : HTKeyValue (Ptr WordPositions)) : Posting :=
  ⟨kv.value.val.word.val, docId, kv.value.val.positions.val⟩

open HTIterator in
theorem moveWords_follows (docId : DocID) (kvs : List (HTKeyValue (Ptr WordPositions))) (fuel : Nat)
    (hfuel : kvs.length < fuel) (tab : Ptr WordTable) (it : Ptr HTIterator) (hit : Points tab.val it.val kvs)
    (ix : Ptr MemIndex) (hgood : index.Good ix) (rest : Held) :
    Follows (index.cells ix + (tableCells WordPositions.cells tab + (it.cell .iterator + rest)))
      (moveWords docId fuel tab it ix) ((index.erase ix).addAll (kvs.map (posting docId)))
      fun a b held => index.Post (tableCells WordPositions.cells a.1 + (it.cell .iterator + rest)) a.2 b held := by
  induction kvs generalizing fuel tab it ix with
  | nil =>
      obtain ⟨fuel, rfl⟩ := Nat.exists_eq_succ_of_ne_zero (Nat.ne_of_gt hfuel)
      unfold moveWords
      refine Follows.deref (by simp [tableCells]) ?_
      refine Follows.deref (by simp) ?_
      rw [isValid_nil hit, lift_ok_bind]
      exact Follows.pure ⟨rfl, hgood, rfl⟩
  | cons kv kvs ih =>
      obtain ⟨fuel, rfl⟩ := Nat.exists_eq_succ_of_ne_zero (Nat.ne_of_gt (Nat.zero_lt_of_lt hfuel))
      obtain ⟨tab', it', hremove, hit', hrem, _⟩ := remove_cons hit
      have hlook : tab.val.lookup kv.key = some kv.value := mem_pairs.mp (hit.subset kv (by simp))
      have htotal := hrem.total_eq WordPositions.cells hlook
      unfold moveWords
      refine Follows.deref (by simp [tableCells]) ?_
      refine Follows.deref (by simp) ?_
      rw [isValid_cons hit, lift_ok_bind, if_pos rfl, hremove, lift_ok_bind]
      refine Follows.deref (by simp [tableCells, htotal, WordPositions.cells]) ?_
      have hadd := addPostingList_follows ix hgood kv.value.val.word docId kv.value.val.positions
        (kv.value.cell .wordPositions + (tableCells WordPositions.cells (tab.store tab') + (it.cell .iterator + rest)))
      have hcells : index.cells ix + (tableCells WordPositions.cells tab + (it.cell .iterator + rest)) =
          index.cells ix + (kv.value.val.word.cell .word + (kv.value.val.positions.cell .positions +
            (kv.value.cell .wordPositions +
              (tableCells WordPositions.cells (tab.store tab') + (it.cell .iterator + rest))))) := by
        simp only [tableCells, htotal, WordPositions.cells, Ptr.val_store, Ptr.cell_store]
        abel
      rw [hcells, List.map_cons, MemIndex.addAll, List.foldlM_cons]
      refine Follows.bind hadd ?_
      rintro ix' _ held ⟨rfl, hgood', rfl⟩
      refine Follows.free .wordPositions (index.cells ix' +
        (tableCells WordPositions.cells (tab.store tab') + (it.cell .iterator + rest))) ?_ ?_
      · abel
      · exact ih fuel (by simpa using hfuel) (tab.store tab') (it.store it') hit' ix' hgood'

/-- The loop that starts on the first word of the file. -/
theorem moveWords_all (docId : DocID) (tab : Ptr WordTable) (it : Ptr HTIterator) {it' : HTIterator}
    (hit : HTIterator.Points tab.val it.val tab.val.pairs)
    (hit' : HTIterator.Points (words.erase tab.val) it' (words.erase tab.val).pairs)
    (ix : Ptr MemIndex) (hgood : index.Good ix) (rest : Held) :
    Follows (index.cells ix + (tableCells WordPositions.cells tab + (it.cell .iterator + rest)))
      (moveWords docId (tab.val.numElements + 1) tab it ix)
      (CrawlFileTree.moveWords docId ((words.erase tab.val).numElements + 1) (words.erase tab.val) it' (index.erase ix))
      fun a b held => index.Post (tableCells WordPositions.cells a.1 + (it.cell .iterator + rest)) a.2 b held := by
  have hrun : CrawlFileTree.moveWords docId ((words.erase tab.val).numElements + 1) (words.erase tab.val) it'
      (index.erase ix) = (index.erase ix).addAll (tab.val.pairs.map (posting docId)) := by
    rw [CrawlFileTree.moveWords_eq docId _ _ (by rw [length_pairs]; exact Nat.lt_succ_self _) _ _ hit']
    simp only [words, pairs_map, List.map_map]
    rfl
  rw [hrun]
  exact moveWords_follows docId tab.val.pairs _ (by rw [length_pairs]; exact Nat.lt_succ_self _) tab it hit ix hgood
    rest

/-- The crawl goes on, with so many file buffers left behind. -/
def Leaves (n : Nat) (rest : Held) (a : Crawl) (b : CrawlFileTree.Crawl) (held : Held) : Prop :=
  ∃ bufs : Held, bufs.card = n ∧ (∀ x ∈ bufs, x.2 = .fileBuf) ∧ crawl.Post (bufs + rest) a b held

/-- Read as a string, such a file is empty. -/
def startsWithNul (file : File) : Bool := file.contents.head? = some 0

theorem readFileToString_buf {contents buf : Bytes} {size : Int}
    (hread : CrawlFileTree.readFileToString contents = .ok (buf, size)) (hpos : 0 < size) :
    buf.length < 2 ^ 31 ∧ (cString buf = [] ↔ contents.head? = some 0) := by
  simp only [CrawlFileTree.readFileToString] at hread
  split at hread
  · cases hread
  rw [Except.ok.injEq, Prod.mk.injEq] at hread
  obtain ⟨hbuf, hcut⟩ := hread
  subst hbuf hcut
  have hsize : toInt contents.length < 2 ^ 31 := Int.bmod_lt (by decide)
  constructor
  · rw [List.length_take]
    omega
  · cases contents with
    | nil => exact absurd hpos (by decide)
    | cons c cs =>
        obtain ⟨k, hk⟩ := Nat.exists_eq_succ_of_ne_zero (n := (toInt (c :: cs).length).toNat) (by omega)
        rw [hk, List.take_succ_cons, cString, List.head?_cons, Option.some_inj]
        by_cases hc : c = 0
        · simp [hc]
        · simp [hc]

theorem leftover_fileBuf (fileBuf : Ptr Bytes) : ∀ x ∈ leftover fileBuf, x.2 = .fileBuf := by
  unfold leftover
  split <;> simp [Ptr.cell]

theorem leftover_card {fileBuf : Ptr Bytes} {file : File}
    (h : cString fileBuf.val = [] ↔ file.contents.head? = some 0) :
    (leftover fileBuf).card = [file].countP startsWithNul := by
  unfold leftover
  simp only [h, List.countP_singleton, startsWithNul, decide_eq_true_eq]
  split <;> rfl

theorem handleFile_follows (s : Crawl) (hgood : crawl.Good s) (file : File) (rest : Held) :
    Follows (crawl.cells s + rest) (handleFile s file) (CrawlFileTree.handleFile (crawl.erase s) file)
      (Leaves ([file].countP startsWithNul) rest) := by
  unfold handleFile CrawlFileTree.handleFile readFileToString
  rw [bind_assoc]
  refine Follows.lift id (id_map _).symm ?_
  rintro ⟨buf, size⟩ hread
  rw [bind_assoc]
  refine Follows.malloc fun fileBuf hbuf => ?_
  rw [pure_bind]
  refine Follows.lift id (id_map _).symm ?_
  intro _ hver
  have hpos : 0 < size := by
    by_contra hneg
    simp [hneg] at hver
  obtain ⟨hlen, hempty⟩ := readFileToString_buf hread hpos
  subst hbuf
  refine Follows.bind (parseIntoWordPositionsTable_follows fileBuf hlen (crawl.cells s + rest)) ?_
  rintro (_ | tab) _ held ⟨rfl, _, rfl⟩
  · refine Follows.pure ⟨leftover fileBuf, leftover_card hempty, leftover_fileBuf fileBuf, rfl, hgood, ?_⟩
    exact (zero_add _).trans (add_left_comm _ _ _)
  · have hcells : (parsed.cells (some tab) + (leftover fileBuf + (crawl.cells s + rest))) =
        docs.cells s.docTable + (index.cells s.index + (tableCells WordPositions.cells tab +
          (leftover fileBuf + rest))) := by
      simp only [parsed, crawl, Option.map_some, Option.getD_some]
      abel
    rw [hcells]
    refine Follows.bind (docTableAdd_follows s.docTable hgood.1 file.path _) ?_
    rintro ⟨docTable, _⟩ ⟨_, docId⟩ held ⟨hid, hdocs⟩
    obtain ⟨hsame, hgoodDocs, rfl⟩ := hdocs
    dsimp only at hid hsame hgoodDocs ⊢
    subst hid hsame
    refine Follows.deref (by simp [tableCells]) ?_
    obtain ⟨it, halloc, hit⟩ := HTIterator.allocate_spec tab.val
    obtain ⟨it', halloc', hit'⟩ := HTIterator.allocate_spec (words.erase tab.val)
    rw [halloc, halloc', lift_ok_bind, Run.ok_bind]
    refine Follows.malloc fun itPtr hitPtr => ?_
    subst hitPtr
    have hmove := moveWords_all docId tab itPtr hit hit' s.index hgood.2
      (docs.cells docTable + (leftover fileBuf + rest))
    have hcells' : itPtr.cell .iterator + (docs.cells docTable + (index.cells s.index +
        (tableCells WordPositions.cells tab + (leftover fileBuf + rest)))) =
        index.cells s.index + (tableCells WordPositions.cells tab + (itPtr.cell .iterator +
          (docs.cells docTable + (leftover fileBuf + rest)))) := by
      abel
    rw [hcells']
    refine Follows.bind hmove ?_
    rintro ⟨tab', ix⟩ _ held ⟨rfl, hgoodIndex, rfl⟩
    refine Follows.free .iterator (tableCells WordPositions.cells tab' +
      (docs.cells docTable + index.cells ix + (leftover fileBuf + rest))) ?_ ?_
    · abel
    refine Follows.frees _ (hashTableFree_frees freeWordPositions_frees tab') rfl ?_
    exact Follows.pure
      ⟨leftover fileBuf, leftover_card hempty, leftover_fileBuf fileBuf, rfl, ⟨hgoodDocs, hgoodIndex⟩, rfl⟩

end Files

end SearchEngine.CrawlMemory
