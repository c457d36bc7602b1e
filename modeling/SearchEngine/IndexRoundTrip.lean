import SearchEngine.IndexReading
import SearchEngine.WrittenIndex

/-! What is written to an index file can be read back from it. -/

namespace SearchEngine

open FileProgram HashTableReader Layout Program OpenFile

/-- The file has the header and the two tables, and nothing else. -/
structure IndexFile (mi : MemIndex) (dt : DocTable) (image : FileImage) : Prop where
  fits : indexSize mi dt < 2 ^ 31
  length : image.length = indexSize mi dt
  holds : ∃ checksum, CRC32.checksum (tablesBytes mi dt) = .ok checksum ∧
    image.Holds 0 ((indexHeader mi dt checksum).toDisk ++ tablesBytes mi dt)

/-- A file of two tables of these sizes, with its header, and nothing else. -/
structure Headed (d m : Nat) (tables : Bytes) (image : FileImage) : Prop where
  fits : 16 + d + m < 2 ^ 31
  size : tables.length = d + m
  length : image.length = 16 + d + m
  holds : ∃ checksum, CRC32.checksum tables = .ok checksum ∧
    image.Holds 0 ((IndexFileHeader.mk kMagicNumber checksum d m).toDisk ++ tables)

theorem headed_patch {d m : Nat} {tables : Bytes} {checksum : UInt32} (hfit : 16 + d + m < 2 ^ 31)
    (hsize : tables.length = d + m) (hsum : CRC32.checksum tables = .ok checksum) :
    Headed d m tables
      (FileImage.empty.patch 0 ((IndexFileHeader.mk kMagicNumber checksum d m).toDisk ++ tables)) := by
  refine ⟨hfit, hsize, ?_, checksum, hsum, FileImage.holds_patch _ _ _⟩
  have hlen : ((IndexFileHeader.mk kMagicNumber checksum d m).toDisk ++ tables).length = 16 + d + m := by
    rw [List.length_append, IndexFileHeader.length_toDisk, hsize, Nat.add_assoc]
  have hpos : 0 < 16 + d + m := by omega
  rw [FileImage.patch]
  simp only [List.ne_nil_of_length_pos (hlen ▸ hpos), if_false, hlen, FileImage.empty]
  omega

variable {mi : MemIndex} {dt : DocTable} {image : FileImage}

theorem indexFile_patch {checksum : UInt32} (hfit : indexSize mi dt < 2 ^ 31)
    (hsum : CRC32.checksum (tablesBytes mi dt) = .ok checksum) :
    IndexFile mi dt (FileImage.empty.patch 0 ((indexHeader mi dt checksum).toDisk ++ tablesBytes mi dt)) := by
  have hlen := length_tablesBytes mi dt
  have hsize := indexSize_eq mi dt
  have hfits : 16 + docFormat.tableSize dt.idToName + wordFormat.tableSize mi < 2 ^ 31 := hfit
  have hheaded := headed_patch hfits (by omega) hsum
  exact ⟨hfit, hheaded.length, hheaded.holds⟩

namespace IndexFile

theorem headed (h : IndexFile mi dt image) :
    Headed (docFormat.tableSize dt.idToName) (wordFormat.tableSize mi) (tablesBytes mi dt) image where
  fits := h.fits
  size := by
    have hlen := length_tablesBytes mi dt
    have hsize := indexSize_eq mi dt
    omega
  length := h.length
  holds := h.holds

theorem docs (h : IndexFile mi dt image) : TableAt docFormat image 16 dt.idToName := by
  obtain ⟨checksum, _, hall⟩ := h.holds
  have hsize := indexSize_eq mi dt
  have hfits := h.fits
  rw [FileImage.holds_append, IndexFileHeader.length_toDisk, Nat.zero_add, tablesBytes, FileImage.holds_append] at hall
  exact ⟨hall.2.1, by omega⟩

theorem words (h : IndexFile mi dt image) :
    TableAt wordFormat image (16 + docFormat.tableSize dt.idToName) mi := by
  obtain ⟨checksum, _, hall⟩ := h.holds
  have hsize := indexSize_eq mi dt
  have hfits := h.fits
  rw [FileImage.holds_append, IndexFileHeader.length_toDisk, Nat.zero_add, tablesBytes, FileImage.holds_append,
    ElementFormat.length_tableBytes] at hall
  exact ⟨hall.2.2, by omega⟩

end IndexFile

namespace FileIndexReader

theorem readBuffers_run (rounds : Nat) (bs : Bytes) (hrounds : bs.length < rounds) (crc crc' : CRC32)
    (hfold : crc.foldBytes bs = .ok crc') (pos : Nat) (linked : Bool) (h : image.Holds pos bs) :
    (readBuffers rounds bs.length crc).run handle ⟨image, pos, linked⟩ =
      .ok (crc', ⟨image, pos + bs.length, linked⟩) := by
  induction rounds generalizing bs crc pos with
  | zero => omega
  | succ rounds ih =>
      by_cases hempty : bs = []
      · subst hempty
        obtain rfl : crc = crc' := by simpa [CRC32.foldBytes] using hfold
        simp [readBuffers]
      · have hpos : 0 < bs.length := List.length_pos_iff.mpr hempty
        -- one round takes at most a buffer off the front
        have hsplit := List.take_append_drop 512 bs
        have hbuf : min (bs.length : Int) kBufSize = ((bs.take 512).length : Int) := by
          rw [List.length_take, kBufSize]
          omega
        have hleft : (bs.length : Int) - (bs.take 512).length = ((bs.drop 512).length : Int) := by
          rw [List.length_take, List.length_drop]
          omega
        rw [← hsplit, CRC32.foldBytes_append] at hfold
        obtain ⟨crc₁, hfront, hrest⟩ := Run.bind_eq_ok.mp hfold
        rw [← hsplit, FileImage.holds_append] at h
        have htake : (bs.take 512).length ≠ 0 := by
          rw [List.length_take]
          omega
        have hread := run_freadVerified (f := ⟨image, pos, linked⟩) h.1 rfl htake
        have hnext := ih (bs.drop 512) (by rw [List.length_drop]; omega) crc₁ hrest _ h.2
        have hin : (0 : Int) < (bs.length : Int) := by omega
        simp only [readBuffers, hin, if_true, hbuf, Int.toNat_natCast, run_bind, hread, ok_bind, hfront, run_ofRun_ok,
          hleft, hnext]
        congr 3
        rw [Nat.add_assoc, ← List.length_append, hsplit]

theorem new_headed {d m : Nat} {tables : Bytes} (h : Headed d m tables image) (validate : Bool) (pos : Nat) :
    ∃ checksum pos', (new validate).run handle ⟨image, pos, true⟩ =
      .ok (⟨⟨kMagicNumber, checksum, d, m⟩⟩, ⟨image, pos', true⟩) := by
  obtain ⟨checksum, hsum, hall⟩ := h.holds
  have hfits := h.fits
  have hlen := h.size
  obtain ⟨hheader, htables⟩ := FileImage.holds_append.mp hall
  rw [IndexFileHeader.length_toDisk, Nat.zero_add] at htables
  have hread := run_freadVerified (f := ⟨image, 0, true⟩) hheader (IndexFileHeader.length_toDisk _) (by decide)
  have hback : IndexFileHeader.ofDisk (IndexFileHeader.mk kMagicNumber checksum d m).toDisk =
      ⟨kMagicNumber, checksum, d, m⟩ := by
    rw [IndexFileHeader.ofDisk_toDisk]
    simp only [IndexFileHeader.mk.injEq, true_and]
    exact ⟨int32_of_lt (Int.natCast_nonneg _) (by omega), int32_of_lt (Int.natCast_nonneg _) (by omega)⟩
  have hopen : (succeeds .openRead).run handle ⟨image, pos, true⟩ = .ok (true, ⟨image, 0, true⟩) := rfl
  have hstat (f : OpenFile) : fileSize.run handle f = .ok (f.image.length, f) := rfl
  have hbytes : decide ((image.length : Int) = ((16 : Nat) + (d : Int) + m) % 2 ^ 32) = true := by
    rw [decide_eq_true_eq, h.length]
    omega
  obtain ⟨crc, hfold, hret⟩ := Run.bind_eq_ok.mp hsum
  have hcrc : decide (crc.getFinalCRC.1 = checksum) = true := decide_eq_true (Except.ok.inj hret)
  have hleft : (d : Int) + m = (tables.length : Int) := by omega
  have hadd : (addInt d m).run handle ⟨image, 16, true⟩ = .ok ((tables.length : Int), ⟨image, 16, true⟩) := by
    rw [← hleft]
    exact run_addInt (Int.natCast_nonneg d) (Int.natCast_nonneg m) (by omega) _
  have hloop := readBuffers_run (tables.length + 1) _ (Nat.lt_succ_self _) _ _ hfold 16 true htables
  cases validate with
  | false =>
      refine ⟨checksum, 16, ?_⟩
      simp only [new, run_bind, hopen, ok_bind, run_verify333, IndexFileHeader.sizeof, hread, hback, decide_true, hstat,
        hbytes, Bool.false_eq_true, if_false, run_pure]
  | true =>
      refine ⟨checksum, 16 + tables.length, ?_⟩
      simp only [new, run_bind, hopen, ok_bind, run_verify333, IndexFileHeader.sizeof, hread, hback, decide_true, hstat,
        hbytes, if_true, Nat.zero_add, hadd, Int.toNat_natCast, hloop, hcrc, run_pure]

theorem new_run (h : IndexFile mi dt image) (validate : Bool) (pos : Nat) :
    ∃ checksum pos', (new validate).run handle ⟨image, pos, true⟩ =
      .ok (⟨indexHeader mi dt checksum⟩, ⟨image, pos', true⟩) := new_headed h.headed validate pos

theorem newIndexTableReader_headed {V : Type} {F : ElementFormat V} {t : HashTable V} {d m : Nat} {tables : Bytes}
    (h : Headed d m tables image) (ht : TableAt F image (16 + d) t) (checksum : UInt32) :
    Returns image (newIndexTableReader ⟨⟨kMagicNumber, checksum, d, m⟩⟩) (readerAt (16 + d) t) := by
  have hfits := h.fits
  have hoff : int32 ((16 : Nat) + (d : Int)) = ((16 + d : Nat) : Int) := by
    rw [int32_of_lt] <;> omega
  rw [newIndexTableReader, IndexFileHeader.sizeof, hoff]
  exact new_returns ht

theorem openTables_headed {V W : Type} {F : ElementFormat V} {G : ElementFormat W} {t : HashTable V} {u : HashTable W}
    {d m : Nat} {tables : Bytes} (h : Headed d m tables image) (hdocs : TableAt F image 16 t)
    (hwords : TableAt G image (16 + d) u) (validate : Bool) (pos : Nat) :
    ∃ pos', (openTables validate).run handle ⟨image, pos, true⟩ =
      .ok ((readerAt 16 t, readerAt (16 + d) u), ⟨image, pos', true⟩) := by
  obtain ⟨checksum, pos₁, hnew⟩ := new_headed h validate pos
  obtain ⟨pos₂, hdtr⟩ := new_returns hdocs pos₁ true
  obtain ⟨pos₃, hitr⟩ := newIndexTableReader_headed h hwords checksum pos₂ true
  have hdtr' : (newDocTableReader ⟨⟨kMagicNumber, checksum, d, m⟩⟩).run handle ⟨image, pos₁, true⟩ =
      .ok (readerAt 16 t, ⟨image, pos₂, true⟩) := hdtr
  exact ⟨pos₃, by simp only [openTables, run_bind, hnew, ok_bind, hdtr', hitr, run_pure]⟩

theorem openTables_run (h : IndexFile mi dt image) (validate : Bool) (pos : Nat) :
    ∃ pos', (openTables validate).run handle ⟨image, pos, true⟩ =
      .ok ((readerAt 16 dt.idToName, readerAt (16 + docFormat.tableSize dt.idToName) mi), ⟨image, pos', true⟩) :=
  openTables_headed h.headed h.docs h.words validate pos

end FileIndexReader

section

variable {names : List Bytes} {adds : List Posting}

structure FindsPostings (image : FileImage) (adds : List Posting) (word : Bytes) (didtr : HashTableReader) : Prop where
  lookupDocID : ∀ docId, ∃ res, Returns image (DocIDTableReader.lookupDocID didtr docId) res ∧
    ∀ positions, res = some positions ↔
      ∃ p, ⟨word, docId, p⟩ ∈ adds ∧ positions = DocIDTableReader.diskPositions p
  getDocIDList : ∃ l, Returns image (DocIDTableReader.getDocIDList didtr) l ∧
    (l.map DocIDElementHeader.docId).Nodup ∧
    ∀ docId n, ⟨docId, n⟩ ∈ l ↔ ∃ p, ⟨word, docId, p⟩ ∈ adds ∧ n = p.numElements

/-- The readers of an index file find exactly what was put into the two
structures that it was written from. -/
structure Recovers (image : FileImage) (dt : DocTable) (adds : List Posting) (dtr itr : HashTableReader) : Prop where
  docs : ∀ docId, Returns image (DocTableReader.lookupDocID dtr docId) (dt.idToName.lookup docId)
  words : ∀ word, ∃ res, Returns image (IndexTableReader.lookupWord itr word) res ∧
    (res.isSome ↔ ∃ a ∈ adds, a.word = word) ∧ ∀ didtr ∈ res, FindsPostings image adds word didtr

theorem representable_of_build (hdt : DocTable.build names = .ok dt) (hmi : MemIndex.build adds = .ok mi)
    (hnames : ∀ name ∈ names, name ≠ [] ∧ name.length ≤ 32767)
    (hwords : ∀ a ∈ adds, a.word.length ≤ 32767) : WriteIndex.Representable mi dt := by
  obtain ⟨registered, hreg, hsub⟩ := DocTable.build_registers hdt
  have hidx := MemIndex.build_indexes hmi
  constructor
  · intro kv hkv
    obtain ⟨i, hi, _⟩ := (hreg.idToName _ _).mp (HashTable.mem_pairs.mp hkv)
    exact hnames kv.value (hsub.subset (List.mem_of_getElem? hi))
  · intro kv hkv
    obtain ⟨a, ha, hword, _⟩ := hidx.words _ _ (HashTable.mem_pairs.mp hkv)
    rw [← hword]
    exact hwords a ha

theorem MemIndex.Indexes.postings_iff {mi : MemIndex} (hidx : mi.Indexes adds) {wp : WordPostings} {word : Bytes}
    (hl : mi.lookup (hashString word) = some wp) (hword : wp.word = word) (docId : DocID) (p : Postings) :
    wp.postings.lookup docId = some p ↔ ⟨word, docId, p⟩ ∈ adds := by
  have hentry := hidx.entries (hashString word) docId p
  rw [MemIndex.postingsAt, hl, Option.bind_some] at hentry
  rw [hentry]
  constructor
  · rintro ⟨a, ha, hhash, rfl, rfl⟩
    obtain ⟨wp', hl', hword'⟩ := hidx.word a ha
    rw [hhash, hl] at hl'
    obtain rfl := Option.some.inj hl'
    rwa [← hword, hword']
  · intro ha
    exact ⟨_, ha, rfl, rfl, rfl⟩

theorem findsPostings_of_reads {mi : MemIndex} (hidx : mi.Indexes adds) {wp : WordPostings} {word : Bytes}
    (hl : mi.lookup (hashString word) = some wp) (hword : wp.word = word) {r : HashTableReader}
    (hr : IndexTableReader.ReadsPostings image wp r) : FindsPostings image adds word r := by
  obtain ⟨off, rfl, ht⟩ := hr
  constructor
  · intro docId
    refine ⟨_, DocIDTableReader.lookupDocID_returns ht docId, ?_⟩
    intro positions
    rw [Option.map_eq_some_iff]
    simp only [hidx.postings_iff hl hword, eq_comm]
  · refine ⟨_, DocIDTableReader.getDocIDList_returns ht, ?_, ?_⟩
    · rw [List.map_map]
      exact wp.postings.nodup_keys
    · intro docId n
      simp only [← hidx.postings_iff hl hword, List.mem_map, HashTable.mem_pairs]
      constructor
      · rintro ⟨kv, hkv, he⟩
        obtain ⟨rfl, rfl⟩ := DocIDElementHeader.mk.inj he
        exact ⟨kv.value, hkv, rfl⟩
      · rintro ⟨p, hp, rfl⟩
        exact ⟨⟨docId, p⟩, hp, rfl⟩

theorem recovers_of_indexFile (hmi : MemIndex.build adds = .ok mi) (hrep : WriteIndex.Representable mi dt)
    (hfile : IndexFile mi dt image) : Recovers image dt adds (readerAt 16 dt.idToName)
      (readerAt (16 + docFormat.tableSize dt.idToName) mi) := by
  have hidx := MemIndex.build_indexes hmi
  constructor
  · intro docId
    exact DocTableReader.lookupDocID_returns hfile.docs (fun kv hkv => (hrep.names kv hkv).2) docId
  · intro word
    obtain ⟨res, hres, hspec⟩ := IndexTableReader.lookupWord_returns hfile.words hrep.words
      (fun kv hkv => hidx.hash_word hkv) word
    refine ⟨res, hres, ?_⟩
    cases res with
    | none =>
        refine ⟨iff_of_false (by simp) ?_, by simp⟩
        rintro ⟨a, ha, rfl⟩
        obtain ⟨wp, hl, hword⟩ := hidx.word a ha
        exact hspec wp hl hword
    | some r =>
        obtain ⟨wp, hl, hword, hr⟩ := hspec
        obtain ⟨a, ha, haword, _⟩ := hidx.words _ _ hl
        refine ⟨iff_of_true rfl ⟨a, ha, haword.trans hword⟩, ?_⟩
        intro didtr hdidtr
        obtain rfl := Option.some.inj hdidtr
        exact findsPostings_of_reads hidx hl hword hr

/-- What WriteIndex writes, the readers recover. -/
theorem writeIndex_recovered (hdt : DocTable.build names = .ok dt) (hmi : MemIndex.build adds = .ok mi)
    (hnames : ∀ name ∈ names, name ≠ [] ∧ name.length ≤ 32767)
    (hwords : ∀ a ∈ adds, a.word.length ≤ 32767) (hfit : indexSize mi dt < 2 ^ 31) (f : OpenFile) :
    ∃ size image pos, (WriteIndex.writeIndex mi dt).run handle f = .ok (size, ⟨image, pos, true⟩) ∧ 0 < size ∧
      ∀ validate pos, ∃ dtr itr pos', (FileIndexReader.openTables validate).run handle ⟨image, pos, true⟩ =
          .ok ((dtr, itr), ⟨image, pos', true⟩) ∧ Recovers image dt adds dtr itr := by
  have hrep := representable_of_build hdt hmi hnames hwords
  obtain ⟨checksum, pos, hsum, hwrite⟩ := WriteIndex.writeIndex_writes hrep hfit f
  have hfile := indexFile_patch hfit hsum
  refine ⟨_, _, pos, hwrite, ?_, ?_⟩
  · rw [indexSize]
    omega
  · intro validate pos
    obtain ⟨pos', hopen⟩ := FileIndexReader.openTables_run hfile validate pos
    exact ⟨_, _, pos', hopen, recovers_of_indexFile hmi hrep hfile⟩

def smallNames : List Bytes := [ascii ['d'], ascii ['e']]

def smallAdds : List Posting :=
  [⟨ascii ['a'], 1, (LinkedList.allocate.append 0).append 7⟩, ⟨ascii ['a'], 2, LinkedList.allocate.append 3⟩,
    ⟨ascii ['b'], 1, LinkedList.allocate.append 2⟩]

theorem build_small : ∃ dt mi, DocTable.build smallNames = .ok dt ∧ MemIndex.build smallAdds = .ok mi ∧
    indexSize mi dt < 2 ^ 31 ∧ ∀ a ∈ smallAdds, ∃ name, dt.getDocName a.docId = .ok (some name) := by
  have h : (do
      let dt ← DocTable.build smallNames
      let mi ← MemIndex.build smallAdds
      let one ← dt.getDocName 1
      let two ← dt.getDocName 2
      return (decide (indexSize mi dt < 2 ^ 31), one, two) : Run (Bool × Option Bytes × Option Bytes)) =
        .ok (true, some (ascii ['d']), some (ascii ['e'])) := by
    decide +kernel
  obtain ⟨dt, hdt, h⟩ := Run.bind_eq_ok.mp h
  obtain ⟨mi, hmi, h⟩ := Run.bind_eq_ok.mp h
  obtain ⟨one, hone, h⟩ := Run.bind_eq_ok.mp h
  obtain ⟨two, htwo, h⟩ := Run.bind_eq_ok.mp h
  obtain ⟨hfit, hnames⟩ := Prod.mk.inj (Except.ok.inj h)
  obtain ⟨rfl, rfl⟩ := Prod.mk.inj hnames
  refine ⟨dt, mi, hdt, hmi, of_decide_eq_true hfit, ?_⟩
  simp only [smallAdds, List.forall_mem_cons]
  exact ⟨⟨_, hone⟩, ⟨_, htwo⟩, ⟨_, hone⟩, by simp⟩

theorem writeIndex_recovered_small :
    ∃ dt mi size image pos, DocTable.build smallNames = .ok dt ∧ MemIndex.build smallAdds = .ok mi ∧
      (WriteIndex.writeIndex mi dt).run handle ⟨.empty, 0, false⟩ = .ok (size, ⟨image, pos, true⟩) ∧ 0 < size ∧
      ∀ validate pos, ∃ dtr itr pos', (FileIndexReader.openTables validate).run handle ⟨image, pos, true⟩ =
          .ok ((dtr, itr), ⟨image, pos', true⟩) ∧ Recovers image dt smallAdds dtr itr := by
  obtain ⟨dt, mi, hdt, hmi, hfit, _⟩ := build_small
  obtain ⟨size, image, pos, h⟩ := writeIndex_recovered hdt hmi (by decide) (by decide) hfit ⟨.empty, 0, false⟩
  exact ⟨dt, mi, size, image, pos, hdt, hmi, h⟩

end

end SearchEngine
