import SearchEngine.BurstDetection
import SearchEngine.WriteTrace

/-! Of an index file that a crash has cut short, the reader accepts none. -/

namespace SearchEngine

open FileProgram OpenFile Program

namespace WriteIndex

variable {V : Type} {fn : WriteElementFn V}

theorem blind_fwriteItem (buf : Bytes) (size : Int) : Blind (fwriteItem buf size) :=
  .ite (.fail _) (.ite (.pure _) (only_fwrite trivial))

theorem blind_fwriteChars (buf : Bytes) (count : Int) : Blind (fwriteChars buf count) :=
  .ite (.fail _) (.ite (.pure _) (only_fwrite trivial))

theorem blind_writeHTBucketRecord (offset numElts bucketOffset : Int) :
    Blind (writeHTBucketRecord offset numElts bucketOffset) := by
  apply (only_fseek trivial).bind
  intro sought
  apply Only.ite (.pure _)
  apply (only_fwrite trivial).bind
  intro written
  exact .ite (.pure _) (.pure _)

theorem blind_writeElements (hfn : ∀ offset kv, Blind (fn offset kv)) (kvs : List (HTKeyValue V))
    (recordPos elementPos : Int) : Blind (writeElements fn kvs recordPos elementPos) := by
  induction kvs generalizing recordPos elementPos with
  | nil => exact .pure _
  | cons kv kvs ih =>
      apply (only_fseek trivial).bind
      intro sought
      apply Only.ite (.pure _)
      apply (only_fwrite trivial).bind
      intro written
      apply Only.ite (.pure _)
      apply (hfn elementPos kv).bind
      intro elementBytes
      apply Only.ite (.pure _)
      apply (only_addInt _ _).bind
      intro elementPos
      exact ih _ _

theorem blind_writeHTBucket (hfn : ∀ offset kv, Blind (fn offset kv)) (offset : Int)
    (li : LinkedList (HTKeyValue V)) : Blind (writeHTBucket fn offset li) := by
  apply Only.ite (.pure _)
  apply (blind_writeElements hfn _ _ _).bind
  intro elementPos
  cases elementPos with
  | none => exact .pure _
  | some elementPos => exact only_addInt _ _

theorem blind_writeBuckets (hfn : ∀ offset kv, Blind (fn offset kv)) (lis : List (LinkedList (HTKeyValue V)))
    (recordPos bucketPos : Int) : Blind (writeBuckets fn lis recordPos bucketPos) := by
  induction lis generalizing recordPos bucketPos with
  | nil => exact .pure _
  | cons li lis ih =>
      apply (blind_writeHTBucketRecord _ _ _).bind
      intro recordBytes
      apply Only.ite (.pure _)
      apply (only_addInt _ _).bind
      intro recordPos
      apply Only.ite (ih _ _)
      apply (blind_writeHTBucket hfn _ _).bind
      intro bucketBytes
      apply Only.ite (.pure _)
      apply (only_addInt _ _).bind
      intro bucketPos
      exact ih _ _

theorem blind_writeHashTable (hfn : ∀ offset kv, Blind (fn offset kv)) (offset : Int) (ht : HashTable V) :
    Blind (writeHashTable fn offset ht) := by
  apply (only_fseek trivial).bind
  intro sought
  apply Only.ite (.pure _)
  apply (only_fwrite trivial).bind
  intro written
  apply Only.ite (.pure _)
  apply (blind_writeBuckets hfn _ _ _).bind
  intro bucketPos
  cases bucketPos with
  | none => exact .pure _
  | some bucketPos => exact only_addInt _ _

theorem blind_writeDocidToDocnameFn (offset : Int) (kv : HTKeyValue Bytes) :
    Blind (writeDocidToDocnameFn offset kv) := by
  apply (only_fseek trivial).bind
  intro sought
  apply Only.ite (.pure _)
  apply (only_fwrite trivial).bind
  intro written
  apply Only.ite (.pure _)
  apply (blind_fwriteItem _ _).bind
  intro named
  exact .ite (.pure _) (.pure _)

theorem blind_writePositions (positions : List UInt64) : Blind (writePositions positions) := by
  induction positions with
  | nil => exact .pure _
  | cons position positions ih =>
      apply (only_fwrite trivial).bind
      intro written
      exact .ite (.pure _) ih

theorem blind_writeDocIDToPositionListFn (offset : Int) (kv : HTKeyValue Postings) :
    Blind (writeDocIDToPositionListFn offset kv) := by
  apply (only_fseek trivial).bind
  intro sought
  apply Only.ite (.pure _)
  apply (only_fwrite trivial).bind
  intro written
  apply Only.ite (.pure _)
  apply (blind_writePositions _).bind
  intro listed
  exact .ite (.pure _) (.pure _)

theorem blind_writeWordToPostingsFn (offset : Int) (kv : HTKeyValue WordPostings) :
    Blind (writeWordToPostingsFn offset kv) := by
  apply (blind_writeHashTable blind_writeDocIDToPositionListFn _ _).bind
  intro htBytes
  apply Only.ite (.pure _)
  apply (only_fseek trivial).bind
  intro sought
  apply Only.ite (.pure _)
  apply (only_fwrite trivial).bind
  intro written
  apply Only.ite (.pure _)
  apply (only_fseek trivial).bind
  intro sought
  apply Only.ite (.pure _)
  apply (blind_fwriteChars _ _).bind
  intro spelled
  exact .ite (.pure _) (.pure _)

theorem inspects_readIntoCRC (n : Nat) (crc : CRC32) : Only Inspects (readIntoCRC n crc) := by
  induction n generalizing crc with
  | zero => exact .pure _
  | succ n ih =>
      apply (only_fread trivial).bind
      intro bytes
      cases bytes with
      | none => exact .pure _
      | some bytes =>
          apply (only_ofRun _).bind
          intro crc
          exact ih crc

/-- The header is written in one piece, after everything else. -/
theorem writes_writeHeader {mi : MemIndex} {dt : DocTable} (hfit : indexSize mi dt < 2 ^ 31) {checksum : UInt32}
    (hsum : CRC32.checksum (tablesBytes mi dt) = .ok checksum) (image : FileImage)
    (hholds : image.Holds 16 (tablesBytes mi dt)) (pos : Nat) (linked : Bool) :
    writes (writeHeader (docFormat.tableSize dt.idToName) (wordFormat.tableSize mi)) ⟨image, pos, linked⟩ =
      FileImage.byteWrites 0 (indexHeader mi dt checksum).toDisk := by
  obtain ⟨crc, hfold, hret⟩ := Run.bind_eq_ok.mp hsum
  obtain rfl : crc.getFinalCRC.1 = checksum := by simpa using hret
  have hsize := indexSize_eq mi dt
  have hlen := length_tablesBytes mi dt
  have hadd := run_addInt (Int.natCast_nonneg (docFormat.tableSize dt.idToName))
    (Int.natCast_nonneg (wordFormat.tableSize mi)) (by omega)
  have hcount : ((docFormat.tableSize dt.idToName : Int) + wordFormat.tableSize mi).toNat =
      (tablesBytes mi dt).length := by omega
  have hcrc := readIntoCRC_run _ _ _ hfold image 16 linked hholds
  have hstart (f : OpenFile) : (fseek (IndexFileHeader.sizeof : Nat)).run handle f = .ok (true, { f with pos := 16 }) :=
    run_fseek 16 f
  have hzero (f : OpenFile) : (fseek 0).run handle f = .ok (true, { f with pos := 0 }) := run_fseek 0 f
  have hsync (f : OpenFile) : writes (do
      FileProgram.verify333 (← succeeds .sync)
      return (IndexFileHeader.sizeof : Int)) f = [] := rfl
  rw [writeHeader, writes_inspects_bind (only_fseek trivial) (hstart _)]
  simp only [Bool.not_true, Bool.false_eq_true, if_false]
  rw [writes_inspects_bind (only_addInt _ _) (hadd _), hcount, writes_inspects_bind (inspects_readIntoCRC _ _) hcrc]
  simp only
  rw [writes_inspects_bind (only_fseek trivial) (hstart _)]
  simp only [Bool.not_true, Bool.false_eq_true, if_false]
  rw [writes_inspects_bind (only_fseek trivial) (hzero _)]
  simp only [Bool.not_true, Bool.false_eq_true, if_false]
  rw [writes_bind_ok (run_fwrite _ _)]
  simp only [Bool.not_true, Bool.false_eq_true, if_false]
  rw [hsync, List.append_nil]
  rfl

/-- What WriteIndex writes: the tables, all of them past the header, and then
the header. -/
theorem writes_writeIndex {mi : MemIndex} {dt : DocTable} (hrep : Representable mi dt)
    (hfit : indexSize mi dt < 2 ^ 31) {checksum : UInt32} (hsum : CRC32.checksum (tablesBytes mi dt) = .ok checksum)
    (f : OpenFile) :
    ∃ ws : List (Nat × UInt8), writes (writeIndex mi dt) f =
        ws ++ FileImage.byteWrites 0 (indexHeader mi dt checksum).toDisk ∧ (∀ w ∈ ws, 16 ≤ w.1) ∧
      FileImage.empty.replay ws = FileImage.empty.patch 16 (tablesBytes mi dt) := by
  have hsize := indexSize_eq mi dt
  obtain ⟨pos₁, pos₂, hdocsrun, hwordsrun⟩ := writeTables_run hrep hfit
  have hblinddocs := blind_writeHashTable blind_writeDocidToDocnameFn 16 dt.idToName
  have hblindwords := blind_writeHashTable blind_writeWordToPostingsFn
    ((16 + docFormat.tableSize dt.idToName : Nat) : Int) mi
  let body := FileImage.empty.patch 16 (tablesBytes mi dt)
  have hheader := writes_writeHeader hfit hsum body (FileImage.holds_patch _ _ _) pos₂ true
  obtain ⟨pos₃, hheaderrun⟩ := writeHeader_writes hfit hsum body (FileImage.holds_patch _ _ _) pos₂ true
  have hadd := run_addInt (by decide : (0 : Int) ≤ (16 : Nat)) (Int.natCast_nonneg (docFormat.tableSize dt.idToName))
    (by omega)
  have hadd' := run_addInt (Int.natCast_nonneg (16 + docFormat.tableSize dt.idToName))
    (Int.natCast_nonneg (wordFormat.tableSize mi)) (by omega)
  refine ⟨writes (writeDocTable dt 16) ⟨.empty, 0, true⟩ ++
    writes (writeMemIndex mi ((16 + docFormat.tableSize dt.idToName : Nat) : Int))
      ⟨FileImage.empty.patch 16 (docFormat.tableBytes 16 dt.idToName), pos₁, true⟩, ?_, ?_, ?_⟩
  · have hcreate : writes (FileProgram.succeeds .create) f = [] := rfl
    have hclose (curPos : Int) (f : OpenFile) : writes (do
        let _ ← FileProgram.succeeds .close
        return curPos) f = [] := rfl
    have hcast : ((16 : Nat) : Int) + (docFormat.tableSize dt.idToName : Int) =
        ((16 + docFormat.tableSize dt.idToName : Nat) : Int) := by omega
    simp only [writeIndex, IndexFileHeader.sizeof]
    rw [writes_bind_ok (run_create f), hcreate, List.nil_append]
    simp only [Bool.not_true, Bool.false_eq_true, if_false]
    rw [writes_bind_ok (x := writeDocTable dt _) hdocsrun, List.append_assoc]
    congr 1
    rw [if_neg (by rw [kFailedWrite]; omega), writes_inspects_bind (only_addInt _ _) (hadd _), hcast,
      writes_bind_ok (x := writeMemIndex mi _) hwordsrun]
    congr 1
    rw [if_neg (by rw [kFailedWrite]; omega), writes_inspects_bind (only_addInt _ _) (hadd' _),
      writes_bind_ok hheaderrun, hheader, if_neg (by decide), hclose, List.append_nil]
  · intro w hw
    rcases List.mem_append.mp hw with hw | hw
    · exact hblinddocs.le_of_mem (writeDocTable_writes hrep hfit) _ w hw
    · exact Nat.le_trans (Nat.le_add_right _ _) (hblindwords.le_of_mem (writeMemIndex_writes hrep hfit) _ w hw)
  · have hfirst := hblinddocs.replay hdocsrun
    have hsecond := hblindwords.replay hwordsrun
    rw [FileImage.replay_append]
    simp only at hfirst hsecond
    rw [writeDocTable, ← hfirst, writeMemIndex, ← hsecond]

end WriteIndex

namespace FileIndexReader

variable {image image' : FileImage} {j : Nat}

/-- The rest of the header is still a hole. -/
structure Torn (j : Nat) (image image' : FileImage) : Prop where
  length : image'.length = image.length
  same : ∀ i, i < j ∨ 16 ≤ i → image'.contents i = image.contents i
  hole : ∀ i, j ≤ i → i < 16 → image'.contents i = 0

theorem Torn.contents_le (h : Torn j image image') {i : Nat} (hi : i < 16) :
    (image'.contents i).toNat ≤ (image.contents i).toNat := by
  by_cases hij : i < j
  · rw [h.same i (.inl hij)]
  · rw [h.hole i (by omega) hi]
    exact Nat.zero_le _

theorem Torn.word_le (h : Torn j image image') (off : Nat) (hoff : off ≤ 12) : image'.word off ≤ image.word off := by
  have h₀ := h.contents_le (i := off) (by omega)
  have h₁ := h.contents_le (i := off + 1) (by omega)
  have h₂ := h.contents_le (i := off + 2) (by omega)
  have h₃ := h.contents_le (i := off + 3) (by omega)
  rw [FileImage.word, FileImage.word]
  omega

theorem word_magicNumber (h : HeaderFits image) : image.word 0 = kMagicNumber.toNat := by
  have hmagic := h.magicNumber
  rw [headerOf_eq] at hmagic
  have hnat := congrArg UInt32.toNat hmagic
  rwa [host32, FileImage.value_slice, UInt32.toNat_ofNat', Nat.mod_eq_of_lt (FileImage.word_lt _ _)] at hnat

/-- A torn header that fits has no byte missing that is not zero: the magic
number needs its last byte, and the sizes only fit when they are all there. -/
theorem Torn.eq (h : Torn j image image') (hfits : HeaderFits image) (hfits' : HeaderFits image')
    (hdoc : image.word 8 ≠ 0) (hsmall : 16 + image.word 8 + image.word 12 < 2 ^ 32) : image' = image := by
  have hmagic : image'.word 0 = image.word 0 := (word_magicNumber hfits').trans (word_magicNumber hfits).symm
  have hsum := hfits'.length_eq.symm.trans (h.length.trans hfits.length_eq)
  have hle8 := h.word_le 8 (by decide)
  have hle12 := h.word_le 12 (by decide)
  have h8 : image'.word 8 = image.word 8 := by omega
  have h12 : image'.word 12 = image.word 12 := by omega
  have hj : 8 ≤ j := by
    by_contra hlt
    apply hdoc
    rw [← h8, FileImage.word, h.hole 8 (by omega) (by decide), h.hole 9 (by omega) (by decide),
      h.hole 10 (by omega) (by decide), h.hole 11 (by omega) (by decide)]
    rfl
  apply FileImage.ext h.length
  funext i
  by_cases hsame : i < j ∨ 16 ≤ i
  · exact h.same i hsame
  · by_cases hlast : 12 ≤ i
    · exact FileImage.contents_of_word h12 hlast (by omega)
    · exact FileImage.contents_of_word h8 (by omega) (by omega)

theorem torn_patch (hroom : 16 ≤ image.length) (hhole : ∀ i, i < 16 → image.contents i = 0) {header : Bytes}
    (hlen : header.length = 16) (j : Nat) : Torn j (image.patch 0 header) (image.patch 0 (header.take j)) := by
  have hne : header ≠ [] := List.ne_nil_of_length_pos (by omega)
  constructor
  · simp only [FileImage.patch, hne, if_false, List.length_take, hlen]
    split <;> omega
  · intro i hi
    by_cases hpast : 16 ≤ i
    · rw [FileImage.patch_contents_of_le (by rw [List.length_take]; omega),
        FileImage.patch_contents_of_le (by omega)]
    · have htake : (header.take j)[i]? = header[i]? := List.getElem?_take_of_lt (by omega)
      simp only [FileImage.patch, Nat.zero_le, if_true, Nat.sub_zero, List.getD_eq_getElem?_getD, htake]
  · intro i hle hlt
    rw [FileImage.patch_contents_of_le (by rw [List.length_take]; omega), hhole i hlt]

theorem headerOf_indexFile {mi : MemIndex} {dt : DocTable} (h : IndexFile mi dt image) :
    ∃ checksum, headerOf image = indexHeader mi dt checksum := by
  obtain ⟨checksum, _, hall⟩ := h.holds
  have hfits := h.fits
  have hsize := indexSize_eq mi dt
  have hslice := (FileImage.holds_append.mp hall).1.slice
  rw [IndexFileHeader.length_toDisk] at hslice
  refine ⟨checksum, ?_⟩
  rw [headerOf, hslice, IndexFileHeader.ofDisk_toDisk, indexHeader]
  simp only [IndexFileHeader.mk.injEq, true_and]
  exact ⟨int32_of_lt (Int.natCast_nonneg _) (by omega), int32_of_lt (Int.natCast_nonneg _) (by omega)⟩

theorem words_indexFile {mi : MemIndex} {dt : DocTable} (h : IndexFile mi dt image) :
    image.word 8 = docFormat.tableSize dt.idToName ∧ image.word 12 = wordFormat.tableSize mi := by
  obtain ⟨checksum, hheader⟩ := headerOf_indexFile h
  have hfits := h.fits
  have hsize := indexSize_eq mi dt
  have hlen (off : Nat) : (2 ^ 32 : Int) = (256 ^ (image.slice off 4).length : Nat) := by simp
  have hlt8 := image.word_lt 8
  have hlt12 := image.word_lt 12
  rw [headerOf_eq, indexHeader] at hheader
  simp only [IndexFileHeader.mk.injEq, BigEndian.signed, FileImage.length_slice, FileImage.value_slice,
    Int.bmod] at hheader
  omega

theorem headerFits_of_new {pos : Nat} {r : FileIndexReader × OpenFile}
    (h : (new true).run handle ⟨image, pos, true⟩ = .ok r) : HeaderFits image := by
  by_contra hfits
  rw [new_eq, if_neg hfits] at h
  cases h

theorem not_headerFits_of_hole (h : ∀ i, i < 16 → image.contents i = 0) : ¬HeaderFits image := by
  intro hfits
  have hmagic := word_magicNumber hfits
  rw [FileImage.word, h 0 (by decide), h 1 (by decide), h 2 (by decide), h 3 (by decide)] at hmagic
  exact absurd hmagic (by decide)

end FileIndexReader

namespace WriteIndex

/-- The file that is there when the first so many bytes have been written. -/
def crashed (mi : MemIndex) (dt : DocTable) (f : OpenFile) (k : Nat) : FileImage :=
  FileImage.empty.replay ((writes (writeIndex mi dt) f).take k)

/-- The crash comes before the header, or cuts the header short. -/
theorem crashed_eq {mi : MemIndex} {dt : DocTable} (hrep : Representable mi dt) (hfit : indexSize mi dt < 2 ^ 31)
    {checksum : UInt32} (hsum : CRC32.checksum (tablesBytes mi dt) = .ok checksum) (f : OpenFile) :
    ∃ n : Nat, ∀ k, (k ≤ n → ∀ i, i < 16 → (crashed mi dt f k).contents i = 0) ∧
      (n ≤ k → crashed mi dt f k = (FileImage.empty.patch 16 (tablesBytes mi dt)).patch 0
        ((indexHeader mi dt checksum).toDisk.take (k - n))) := by
  obtain ⟨ws, hws, hpast, hbody⟩ := writes_writeIndex hrep hfit hsum f
  refine ⟨ws.length, ?_⟩
  intro k
  constructor
  · intro hk i hi
    rw [crashed, hws, List.take_append_of_le_length hk]
    exact FileImage.replay_contents_of_lt (fun w hw => hpast w (List.mem_of_mem_take hw)) hi _
  · intro hk
    rw [crashed, hws, List.take_append, List.take_of_length_le hk, FileImage.replay_append, hbody,
      FileImage.take_byteWrites, FileImage.replay_byteWrites]

theorem patch_header (mi : MemIndex) (dt : DocTable) (checksum : UInt32) :
    (FileImage.empty.patch 16 (tablesBytes mi dt)).patch 0 (indexHeader mi dt checksum).toDisk =
      FileImage.empty.patch 0 ((indexHeader mi dt checksum).toDisk ++ tablesBytes mi dt) := by
  have hall := FileImage.patch_append FileImage.empty 0 (indexHeader mi dt checksum).toDisk (tablesBytes mi dt)
  rw [IndexFileHeader.length_toDisk, Nat.zero_add, FileImage.patch_comm (by simp)] at hall
  exact hall

/-- An index file is there as a whole or is not accepted. -/
theorem writeIndex_crash_atomic {mi : MemIndex} {dt : DocTable} (hrep : Representable mi dt)
    (hfit : indexSize mi dt < 2 ^ 31) (f : OpenFile) (k pos : Nat) {r : FileIndexReader × OpenFile}
    (haccept : (FileIndexReader.new true).run handle ⟨crashed mi dt f k, pos, true⟩ = .ok r) :
    ∃ size file, (writeIndex mi dt).run handle f = .ok (size, file) ∧ crashed mi dt f k = file.image := by
  obtain ⟨checksum, pos', hsum, hrun⟩ := writeIndex_writes hrep hfit f
  refine ⟨_, _, hrun, ?_⟩
  have hfits' := FileIndexReader.headerFits_of_new haccept
  obtain ⟨n, hcrashed⟩ := crashed_eq hrep hfit hsum f
  by_cases hk : k ≤ n
  · exact absurd hfits' (FileIndexReader.not_headerFits_of_hole ((hcrashed k).1 hk))
  · have hfile := indexFile_patch hfit hsum
    obtain ⟨_, _, hok⟩ := FileIndexReader.new_run hfile true 0
    have hfits := FileIndexReader.headerFits_of_new hok
    obtain ⟨hdoc, hindex⟩ := FileIndexReader.words_indexFile hfile
    have hsize := indexSize_eq mi dt
    have htable : docFormat.tableSize dt.idToName = 4 + 8 * dt.idToName.numBuckets +
        Layout.total docFormat.bucketSize dt.idToName.buckets := rfl
    have hlen := length_tablesBytes mi dt
    rw [← patch_header] at hfits hdoc hindex ⊢
    rw [(hcrashed k).2 (by omega)] at hfits' ⊢
    refine (FileIndexReader.torn_patch ?_ ?_ (IndexFileHeader.length_toDisk _) _).eq hfits hfits' ?_ ?_
    · simp only [FileImage.patch, List.ne_nil_of_length_pos (by omega : 0 < (tablesBytes mi dt).length), if_false]
      omega
    · intro i hi
      exact FileImage.patch_contents_of_lt hi
    · rw [hdoc]
      omega
    · rw [hdoc, hindex]
      omega

theorem writeIndex_crash_atomic_small :
    ∃ dt mi k r, DocTable.build smallNames = .ok dt ∧ MemIndex.build smallAdds = .ok mi ∧
      (FileIndexReader.new true).run handle ⟨crashed mi dt ⟨.empty, 0, false⟩ k, 0, true⟩ = .ok r ∧
      ∃ size file, (writeIndex mi dt).run handle ⟨.empty, 0, false⟩ = .ok (size, file) ∧
        crashed mi dt ⟨.empty, 0, false⟩ k = file.image := by
  obtain ⟨dt, mi, hdt, hmi, hfit, _⟩ := build_small
  have hrep := representable_of_build hdt hmi (by decide) (by decide)
  obtain ⟨checksum, pos, hsum, hwrite⟩ := writeIndex_writes hrep hfit ⟨.empty, 0, false⟩
  obtain ⟨n, hcrashed⟩ := crashed_eq hrep hfit hsum ⟨.empty, 0, false⟩
  have hall := (hcrashed (n + 16)).2 (by omega)
  rw [List.take_of_length_le (by rw [IndexFileHeader.length_toDisk]; omega), patch_header] at hall
  obtain ⟨checksum', pos', hok⟩ := FileIndexReader.new_run (indexFile_patch hfit hsum) true 0
  rw [← hall] at hok
  exact ⟨dt, mi, n + 16, _, hdt, hmi, hok, writeIndex_crash_atomic hrep hfit ⟨.empty, 0, false⟩ (n + 16) 0 hok⟩

end WriteIndex

end SearchEngine
