import SearchEngine.CrashAtomicity
import SearchEngine.Library.Tiling

/-! Where the fwrite calls of WriteIndex go: every byte of the file is written
by one of them. -/

namespace SearchEngine

open Tiling

namespace FileProgram

open Program OpenFile

variable {α β : Type}

def opRanges (op : FileOp) (f : OpenFile) : List (Finset Nat) :=
  match op with
  | .write bytes => [Finset.Ico f.pos (f.pos + bytes.length)]
  | _ => []

/-- The ranges of bytes that the fwrite calls of a program write, in order. -/
def ranges (p : FileProgram α) (f : OpenFile) : List (Finset Nat) := p.trace handle opRanges f

def coverage (p : FileProgram α) (f : OpenFile) : Nat → Nat := cover (ranges p f)

theorem ranges_bind_ok {x : FileProgram α} {f f' : OpenFile} {a : α} (h : x.run handle f = .ok (a, f'))
    (k : α → FileProgram β) : ranges (x >>= k) f = ranges x f ++ ranges (k a) f' := trace_bind_ok handle h k

theorem coverage_bind_ok {x : FileProgram α} {f f' : OpenFile} {a : α} (h : x.run handle f = .ok (a, f'))
    (k : α → FileProgram β) : coverage (x >>= k) f = coverage x f + coverage (k a) f' := by
  rw [coverage, ranges_bind_ok h, cover_append]
  rfl

theorem coverage_pure (a : α) (f : OpenFile) : coverage (pure a) f = 0 := rfl

theorem coverage_seek (offset : Nat) (k : Bool → FileProgram β) (f : OpenFile) :
    coverage (fseek offset >>= k) f = coverage (k true) { f with pos := offset } := by
  have hrun : (fseek offset).run handle f = .ok (true, { f with pos := offset }) := by
    rw [run_fseek, if_pos (Int.natCast_nonneg offset), decide_eq_true (Int.natCast_nonneg offset)]
    rfl
  rw [coverage_bind_ok hrun]
  exact zero_add _

theorem coverage_write (bytes : Bytes) (k : Bool → FileProgram β) (f : OpenFile) :
    coverage (fwrite bytes >>= k) f = span f.pos bytes.length +
      coverage (k true) { f with image := f.image.patch f.pos bytes, pos := f.pos + bytes.length } := by
  rw [coverage_bind_ok (run_fwrite bytes f)]
  congr 1
  exact cover_range f.pos bytes.length

theorem ranges_inspects {p : FileProgram α} (hp : Only Inspects p) (f : OpenFile) : ranges p f = [] := by
  apply hp.trace_eq_nil
  intro op f hop
  cases op with
  | write bytes => exact hop.elim
  | create | openRead | seek | read | sync | size | close | unlink => rfl

theorem ranges_inspects_bind {x : FileProgram α} (hx : Only Inspects x) {f f' : OpenFile} {a : α}
    (h : x.run handle f = .ok (a, f')) (k : α → FileProgram β) : ranges (x >>= k) f = ranges (k a) f' := by
  rw [ranges_bind_ok h, ranges_inspects hx, List.nil_append]

theorem coverage_inspects {x : FileProgram α} (hx : Only Inspects x) {f f' : OpenFile} {a : α}
    (h : x.run handle f = .ok (a, f')) (k : α → FileProgram β) : coverage (x >>= k) f = coverage (k a) f' :=
  congrArg cover (ranges_inspects_bind hx h k)

theorem coverage_addInt (a b : Int) (f : OpenFile) : coverage (addInt a b) f = 0 := by
  rw [coverage, ranges_inspects (only_addInt a b)]
  rfl

end FileProgram

namespace WriteIndex

open FileProgram Layout Program OpenFile

variable {V : Type} {F : ElementFormat V} {fn : WriteElementFn V}

/-- Writing an element writes each byte of its room once. -/
def FillsOnce (fn : WriteElementFn V) (F : ElementFormat V) (kv : HTKeyValue V) : Prop :=
  ∀ off : Nat, off + F.size kv < 2 ^ 31 → ∀ f, coverage (fn off kv) f = span off (F.size kv)

theorem coverage_writeHTBucketRecord (off n pos : Nat) (f : OpenFile) :
    coverage (writeHTBucketRecord off n pos) f = span off 8 := by
  simp only [writeHTBucketRecord, coverage_seek, coverage_write, Bool.not_true, Bool.false_eq_true, if_false,
    coverage_pure, BucketRecord.length_toDisk, add_zero]

theorem coverage_writeElements (kvs : List (HTKeyValue V)) (hfn : ∀ kv ∈ kvs, Serializes fn F kv)
    (honce : ∀ kv ∈ kvs, FillsOnce fn F kv) (rp p : Nat) (hroom : rp + 4 * kvs.length ≤ p)
    (hfit : p + total F.size kvs < 2 ^ 31) (f : OpenFile) :
    coverage (writeElements fn kvs rp p) f = span rp (4 * kvs.length) + span p (total F.size kvs) := by
  induction kvs generalizing rp p f with
  | nil =>
      rw [total_nil, List.length_nil, Nat.mul_zero, span_zero, span_zero]
      rfl
  | cons kv kvs ih =>
      simp only [List.length_cons, total_cons] at hroom hfit
      obtain ⟨pos, helem⟩ := hfn kv (by simp) p (by omega) (f.image.patch rp (ElementPositionRecord.mk p).toDisk)
        (rp + 4) f.linked
      have hadd := run_addInt (Int.natCast_nonneg p) (Int.natCast_nonneg (F.size kv)) (by omega)
      have hrec : int32 ((rp : Int) + ElementPositionRecord.sizeof) = ((rp + 4 : Nat) : Int) := by
        rw [ElementPositionRecord.sizeof, int32_of_lt] <;> omega
      have hrest := ih (fun kv' h => hfn kv' (by simp [h])) (fun kv' h => honce kv' (by simp [h])) (rp + 4)
        (p + F.size kv) (by omega) (by omega)
      simp only [writeElements, coverage_seek, coverage_write, Bool.not_true, Bool.false_eq_true, if_false,
        ElementPositionRecord.length_toDisk]
      rw [coverage_bind_ok helem, honce kv (by simp) p (by omega), if_neg (by omega),
        coverage_inspects (only_addInt _ _) (hadd _), hrec, ← Int.natCast_add, hrest, List.length_cons, total_cons,
        Nat.mul_succ, Nat.add_comm (4 * kvs.length) 4, span_add rp, span_add p, ← add_assoc, add_add_add_comm]

theorem coverage_writeHTBucket (li : LinkedList (HTKeyValue V)) (hfn : ∀ kv ∈ li.payloads, Serializes fn F kv)
    (honce : ∀ kv ∈ li.payloads, FillsOnce fn F kv) (off : Nat) (hfit : off + F.bucketSize li < 2 ^ 31)
    (f : OpenFile) : coverage (writeHTBucket fn off li) f = span off (F.bucketSize li) := by
  by_cases hempty : li.numElements = 0
  · rw [writeHTBucket, if_pos hempty, F.bucketSize_empty hempty, span_zero]
    rfl
  · have hsize : F.bucketSize li = 4 * li.numElements + total F.size li.payloads := rfl
    have hroom : off + 4 * li.payloads.length ≤ off + 4 * li.numElements := by rw [LinkedList.length_payloads]
    obtain ⟨pos, hloop⟩ := writeElements_writes li.payloads hfn off (off + 4 * li.numElements) hroom (by omega)
      f.image f.pos f.linked
    have hpos : int32 ((off : Int) + ElementPositionRecord.sizeof * li.numElements) =
        ((off + 4 * li.numElements : Nat) : Int) := by
      rw [ElementPositionRecord.sizeof, int32_of_lt] <;> omega
    have hcover := coverage_writeElements li.payloads hfn honce off (off + 4 * li.numElements) hroom (by omega) f
    rw [writeHTBucket, if_neg hempty, hpos, coverage_bind_ok hloop, hcover, LinkedList.length_payloads, hsize,
      span_add]
    change _ + coverage (addInt _ _) _ = _
    rw [coverage_addInt, add_zero]

theorem coverage_writeBuckets (lis : List (LinkedList (HTKeyValue V)))
    (hfn : ∀ li ∈ lis, ∀ kv ∈ li.payloads, Serializes fn F kv)
    (honce : ∀ li ∈ lis, ∀ kv ∈ li.payloads, FillsOnce fn F kv) (rp p : Nat) (hroom : rp + 8 * lis.length ≤ p)
    (hfit : p + total F.bucketSize lis < 2 ^ 31) (f : OpenFile) :
    coverage (writeBuckets fn lis rp p) f = span rp (8 * lis.length) + span p (total F.bucketSize lis) := by
  induction lis generalizing rp p f with
  | nil =>
      rw [total_nil, List.length_nil, Nat.mul_zero, span_zero, span_zero]
      rfl
  | cons li lis ih =>
      simp only [List.length_cons, total_cons] at hroom hfit
      obtain ⟨pos₁, hrecord⟩ := writeHTBucketRecord_writes rp li.numElements p f.image f.pos f.linked
      have hadd := run_addInt (Int.natCast_nonneg rp) (by decide : (0 : Int) ≤ 8) (by omega)
      have hrest := ih (fun li' h => hfn li' (by simp [h])) (fun li' h => honce li' (by simp [h])) (rp + 8)
        (p + F.bucketSize li) (by omega) (by omega)
      have hnext : (rp : Int) + 8 = ((rp + 8 : Nat) : Int) := rfl
      have hsplit (c : Nat → Nat) (hc : c = span p (F.bucketSize li) +
          (span (rp + 8) (8 * lis.length) + span (p + F.bucketSize li) (total F.bucketSize lis))) :
          span rp 8 + c = span rp (8 * (li :: lis).length) + span p (total F.bucketSize (li :: lis)) := by
        rw [hc, List.length_cons, total_cons, Nat.mul_succ, Nat.add_comm (8 * lis.length) 8, span_add rp,
          span_add p, ← add_assoc, add_add_add_comm]
      rw [writeBuckets, coverage_bind_ok hrecord, coverage_writeHTBucketRecord, if_neg (by decide),
        coverage_inspects (only_addInt _ _) (hadd _), hnext]
      apply hsplit
      by_cases hempty : li.numElements = 0
      · rw [F.bucketSize_empty hempty, Nat.add_zero] at hrest
        rw [if_pos hempty, F.bucketSize_empty hempty, span_zero, Nat.add_zero, zero_add]
        exact hrest _
      · obtain ⟨pos₂, hbucket⟩ := writeHTBucket_writes li (hfn li (by simp)) p (by omega)
          (f.image.patch rp (BucketRecord.mk li.numElements p).toDisk) pos₁ f.linked
        have hadd' := run_addInt (Int.natCast_nonneg p) (Int.natCast_nonneg (F.bucketSize li)) (by omega)
        have hcover := coverage_writeHTBucket li (hfn li (by simp)) (honce li (by simp)) p (by omega)
        rw [if_neg hempty, coverage_bind_ok hbucket, hcover, if_neg (by rw [kFailedWrite]; omega),
          coverage_inspects (only_addInt _ _) (hadd' _), ← Int.natCast_add, hrest]

theorem coverage_writeHashTable (t : HashTable V) (hfn : ∀ kv ∈ t.pairs, Serializes fn F kv)
    (honce : ∀ kv ∈ t.pairs, FillsOnce fn F kv) (off : Nat) (hfit : off + F.tableSize t < 2 ^ 31) (f : OpenFile) :
    coverage (writeHashTable fn off t) f = span off (F.tableSize t) := by
  have hsize := F.tableSize_buckets t
  have hrp : int32 ((off : Int) + BucketListHeader.sizeof) = ((off + 4 : Nat) : Int) := by
    rw [BucketListHeader.sizeof, int32_of_lt] <;> omega
  have hp : int32 ((off : Int) + BucketListHeader.sizeof + t.numBuckets * BucketRecord.sizeof) =
      ((off + 4 + 8 * t.numBuckets : Nat) : Int) := by
    rw [BucketListHeader.sizeof, BucketRecord.sizeof, int32_of_lt] <;> omega
  have hbuckets : ∀ li ∈ t.buckets, ∀ kv ∈ li.payloads, kv ∈ t.pairs := fun li hli kv hkv =>
    List.mem_flatMap.mpr ⟨li, hli, hkv⟩
  have hroom : off + 4 + 8 * t.buckets.length ≤ off + 4 + 8 * t.numBuckets := by rw [t.size]
  obtain ⟨pos, hloop⟩ := writeBuckets_writes t.buckets (fun li hli kv hkv => hfn kv (hbuckets li hli kv hkv)) (off + 4)
    (off + 4 + 8 * t.numBuckets) hroom (by omega) (f.image.patch off (BucketListHeader.mk t.numBuckets).toDisk)
    (off + 4) f.linked
  have hcover := coverage_writeBuckets t.buckets (fun li hli kv hkv => hfn kv (hbuckets li hli kv hkv))
    (fun li hli kv hkv => honce kv (hbuckets li hli kv hkv)) (off + 4) (off + 4 + 8 * t.numBuckets) hroom (by omega)
  simp only [writeHashTable, coverage_seek, coverage_write, Bool.not_true, Bool.false_eq_true, if_false,
    BucketListHeader.length_toDisk, hrp, hp]
  rw [coverage_bind_ok hloop, hcover, t.size, hsize, span_add, span_add, ← add_assoc, ← add_assoc, Nat.add_assoc off]
  change _ + coverage (addInt _ _) _ = _
  rw [coverage_addInt, add_zero]

theorem docname_fillsOnce {kv : HTKeyValue Bytes} (hne : kv.value ≠ []) (hle : kv.value.length ≤ 32767) :
    FillsOnce writeDocidToDocnameFn docFormat kv := by
  intro off _ f
  obtain ⟨hlen, htake⟩ := take_length_int16 hle
  have hpos : 0 < kv.value.length := List.length_pos_iff.mpr hne
  have hitem : fwriteItem kv.value (int16 kv.value.length) = fwrite kv.value := by
    rw [fwriteItem, if_neg (by omega), if_neg (by omega), htake]
  have hsize : docFormat.size kv = 10 + kv.value.length := rfl
  simp only [writeDocidToDocnameFn, hitem, coverage_seek, coverage_write, Bool.not_true, Bool.false_eq_true, if_false,
    coverage_pure, DoctableElementHeader.length_toDisk, add_zero]
  rw [hsize, span_add]

theorem coverage_writePositions (ps : List UInt64) (f : OpenFile) :
    coverage (writePositions ps) f = span f.pos (4 * ps.length) := by
  induction ps generalizing f with
  | nil =>
      rw [List.length_nil, Nat.mul_zero, span_zero]
      rfl
  | cons p ps ih =>
      simp only [writePositions, coverage_write, Bool.not_true, Bool.false_eq_true, if_false, ih,
        DocIDElementPosition.length_toDisk]
      rw [List.length_cons, Nat.mul_succ, Nat.add_comm (4 * ps.length) 4, span_add]

theorem posting_fillsOnce (kv : HTKeyValue Postings) : FillsOnce writeDocIDToPositionListFn postingFormat kv := by
  intro off _ f
  have hsize : postingFormat.size kv = 12 + 4 * kv.value.numElements := rfl
  simp only [writeDocIDToPositionListFn, coverage_seek, coverage_write, Bool.not_true, Bool.false_eq_true, if_false,
    DocIDElementHeader.length_toDisk]
  rw [coverage_bind_ok (writePositions_run _ _ _ _), coverage_writePositions, hsize, span_add,
    LinkedList.length_payloads]
  exact congrArg _ (add_zero _)

theorem word_fillsOnce {kv : HTKeyValue WordPostings} (hle : kv.value.word.length ≤ 32767) :
    FillsOnce writeWordToPostingsFn wordFormat kv := by
  intro off hfit f
  have hsize : wordFormat.size kv = 6 + kv.value.word.length + postingFormat.tableSize kv.value.postings := rfl
  obtain ⟨hlen, htake⟩ := take_length_int16 hle
  have hoff : int32 ((off : Int) + WordPostingsHeader.sizeof + kv.value.word.length) =
      ((off + 6 + kv.value.word.length : Nat) : Int) := by
    rw [WordPostingsHeader.sizeof, int32_of_lt] <;> omega
  have hseek : (off : Int) + WordPostingsHeader.sizeof = ((off + 6 : Nat) : Int) := rfl
  have hchars (f : OpenFile) : coverage (do
      if !(← fwriteChars kv.value.word kv.value.word.length) then return kFailedWrite
      return int32 (WordPostingsHeader.sizeof + kv.value.word.length + postingFormat.tableSize kv.value.postings)) f =
      span f.pos kv.value.word.length := by
    by_cases hempty : kv.value.word = []
    · rw [hempty, List.length_nil, span_zero]
      rfl
    · have hpos : 0 < kv.value.word.length := List.length_pos_iff.mpr hempty
      rw [fwriteChars, if_neg (by omega), if_neg (by omega), Int.toNat_natCast, List.take_length, coverage_write]
      exact add_zero _
  obtain ⟨pos, htable⟩ := writeHashTable_writes kv.value.postings (fun p _ => posting_serializes p)
    (off + 6 + kv.value.word.length) (by omega) f.image f.pos f.linked
  have hcover := coverage_writeHashTable kv.value.postings (fun p _ => posting_serializes p)
    (fun p _ => posting_fillsOnce p) (off + 6 + kv.value.word.length) (by omega) f
  simp only [writeWordToPostingsFn, hlen, hoff]
  rw [coverage_bind_ok htable, hcover, if_neg (by rw [kFailedWrite]; omega)]
  simp only [coverage_seek, coverage_write, Bool.not_true, Bool.false_eq_true, if_false, hseek, hchars,
    WordPostingsHeader.length_toDisk]
  rw [hsize, span_add, span_add, ← Nat.add_assoc, add_comm]

theorem coverage_writeHeader {mi : MemIndex} {dt : DocTable} (hfit : indexSize mi dt < 2 ^ 31) (image : FileImage)
    (hholds : image.Holds 16 (tablesBytes mi dt)) (pos : Nat) (linked : Bool) :
    coverage (writeHeader (docFormat.tableSize dt.idToName) (wordFormat.tableSize mi)) ⟨image, pos, linked⟩ =
      span 0 16 := by
  obtain ⟨checksum, hsum, _⟩ := CRC32.checksum_run (tablesBytes mi dt)
  obtain ⟨crc, hfold, _⟩ := Run.bind_eq_ok.mp hsum
  have hsize := indexSize_eq mi dt
  have hlen := length_tablesBytes mi dt
  have hadd := run_addInt (Int.natCast_nonneg (docFormat.tableSize dt.idToName))
    (Int.natCast_nonneg (wordFormat.tableSize mi)) (by omega)
  have hcount : ((docFormat.tableSize dt.idToName : Int) + wordFormat.tableSize mi).toNat =
      (tablesBytes mi dt).length := by omega
  have hcrc := readIntoCRC_run _ _ _ hfold image IndexFileHeader.sizeof linked hholds
  have hzero (k : Bool → FileProgram Int) (f : OpenFile) :
      coverage (fseek 0 >>= k) f = coverage (k true) { f with pos := 0 } := coverage_seek 0 k f
  rw [writeHeader, coverage_seek]
  simp only [Bool.not_true, Bool.false_eq_true, if_false]
  rw [coverage_inspects (only_addInt _ _) (hadd _), hcount, coverage_inspects (inspects_readIntoCRC _ _) hcrc]
  simp only [coverage_seek, hzero, coverage_write, Bool.not_true, Bool.false_eq_true, if_false,
    IndexFileHeader.length_toDisk]
  exact add_zero _

/-- The calls of WriteIndex that write: those for the two tables, and the one
for the header. -/
theorem ranges_writeIndex {mi : MemIndex} {dt : DocTable} {d m : Nat} {f f₁ f₂ f₃ : OpenFile}
    (hfit : 16 + d + m < 2 ^ 31)
    (hdocs : (writeDocTable dt (16 : Nat)).run handle ⟨.empty, 0, true⟩ = .ok ((d : Int), f₁))
    (hwords : (writeMemIndex mi (16 + d : Nat)).run handle f₁ = .ok ((m : Int), f₂))
    (hheader : (writeHeader d m).run handle f₂ = .ok (16, f₃)) :
    ranges (writeIndex mi dt) f = ranges (writeDocTable dt (16 : Nat)) ⟨.empty, 0, true⟩ ++
      (ranges (writeMemIndex mi (16 + d : Nat)) f₁ ++ ranges (writeHeader d m) f₂) := by
  have hadd := run_addInt (by decide : (0 : Int) ≤ (16 : Nat)) (Int.natCast_nonneg d) (by omega)
  have hadd' := run_addInt (Int.natCast_nonneg (16 + d)) (Int.natCast_nonneg m) (by omega)
  have hcreate : ranges (FileProgram.succeeds .create) f = [] := rfl
  have hclose (curPos : Int) (f : OpenFile) : ranges (do
      let _ ← FileProgram.succeeds .close
      return curPos) f = [] := rfl
  simp only [writeIndex, IndexFileHeader.sizeof]
  rw [ranges_bind_ok (run_create f), hcreate, List.nil_append]
  simp only [Bool.not_true, Bool.false_eq_true, if_false]
  rw [ranges_bind_ok hdocs, if_neg (by rw [kFailedWrite]; omega), ranges_inspects_bind (only_addInt _ _) (hadd _),
    ← Int.natCast_add, ranges_bind_ok hwords, if_neg (by rw [kFailedWrite]; omega),
    ranges_inspects_bind (only_addInt _ _) (hadd' _), ranges_bind_ok hheader, if_neg (by decide), hclose,
    List.append_nil]

/-- What WriteIndex writes leaves no gaps and no overlaps: the header, the doc
table and the index fill the file, each in its own region. -/
theorem writeIndex_tiles {mi : MemIndex} {dt : DocTable} (hrep : Representable mi dt)
    (hfit : indexSize mi dt < 2 ^ 31) (f : OpenFile) :
    ∃ (d m : Nat) (f₁ f₂ f' : OpenFile),
      (writeIndex mi dt).run handle f = .ok (((16 + d + m : Nat) : Int), f') ∧
      ranges (writeIndex mi dt) f = ranges (writeDocTable dt (16 : Nat)) ⟨.empty, 0, true⟩ ++
        (ranges (writeMemIndex mi (16 + d : Nat)) f₁ ++ ranges (writeHeader d m) f₂) ∧
      Tiles (ranges (writeIndex mi dt) f) 0 (16 + d + m) ∧
      Tiles (ranges (writeDocTable dt (16 : Nat)) ⟨.empty, 0, true⟩) 16 (16 + d) ∧
      Tiles (ranges (writeMemIndex mi (16 + d : Nat)) f₁) (16 + d) (16 + d + m) ∧
      (FileIndexReader.headerOf f'.image).doctableBytes = d ∧ (FileIndexReader.headerOf f'.image).indexBytes = m ∧
      f'.image.length = 16 + d + m := by
  have hsize := indexSize_eq mi dt
  obtain ⟨pos₁, pos₂, hdocs, hwords⟩ := writeTables_run hrep hfit
  obtain ⟨checksum, pos, hsum, hrun⟩ := writeIndex_writes hrep hfit f
  obtain ⟨pos₃, hheader⟩ := writeHeader_writes hfit hsum (FileImage.empty.patch 16 (tablesBytes mi dt))
    (FileImage.holds_patch _ _ _) pos₂ true
  have hfile := indexFile_patch hfit hsum
  obtain ⟨checksum', hheaderOf⟩ := FileIndexReader.headerOf_indexFile hfile
  have hsplit := ranges_writeIndex (f := f) (by omega) hdocs hwords hheader
  have hdocsCover : cover (ranges (writeDocTable dt (16 : Nat)) ⟨.empty, 0, true⟩) =
      span 16 (docFormat.tableSize dt.idToName) :=
    coverage_writeHashTable dt.idToName
      (fun kv hkv => docname_serializes (hrep.names kv hkv).1 (hrep.names kv hkv).2)
      (fun kv hkv => docname_fillsOnce (hrep.names kv hkv).1 (hrep.names kv hkv).2) 16 (by omega) _
  have hwordsCover (f : OpenFile) :
      cover (ranges (writeMemIndex mi (16 + docFormat.tableSize dt.idToName : Nat)) f) =
        span (16 + docFormat.tableSize dt.idToName) (wordFormat.tableSize mi) :=
    coverage_writeHashTable mi (fun kv hkv => word_serializes (hrep.words kv hkv))
      (fun kv hkv => word_fillsOnce (hrep.words kv hkv)) _ (by omega) f
  have hheaderCover : cover (ranges (writeHeader (docFormat.tableSize dt.idToName) (wordFormat.tableSize mi))
      ⟨FileImage.empty.patch 16 (tablesBytes mi dt), pos₂, true⟩) = span 0 16 :=
    coverage_writeHeader hfit _ (FileImage.holds_patch _ _ _) pos₂ true
  refine ⟨docFormat.tableSize dt.idToName, wordFormat.tableSize mi, _, _, _, hrun, hsplit, ?_,
    tiles_of_cover hdocsCover, tiles_of_cover (hwordsCover _), ?_, ?_, hfile.headed.length⟩
  · have hall : cover (ranges (writeIndex mi dt) f) =
        span 0 (16 + docFormat.tableSize dt.idToName + wordFormat.tableSize mi) := by
      rw [hsplit, cover_append, cover_append, hdocsCover, hwordsCover, hheaderCover, span_add, span_add,
        Nat.zero_add, Nat.zero_add, ← add_assoc, add_comm, ← add_assoc]
    have htiles := tiles_of_cover hall
    rwa [Nat.zero_add] at htiles
  · rw [hheaderOf]
    rfl
  · rw [hheaderOf]
    rfl

theorem writeIndex_tiles_small :
    ∃ dt mi, DocTable.build smallNames = .ok dt ∧ MemIndex.build smallAdds = .ok mi ∧ ∃ (d m : Nat) (f' : OpenFile),
      (writeIndex mi dt).run handle ⟨.empty, 0, false⟩ = .ok (((16 + d + m : Nat) : Int), f') ∧
      Tiles (ranges (writeIndex mi dt) ⟨.empty, 0, false⟩) 0 (16 + d + m) ∧ f'.image.length = 16 + d + m := by
  obtain ⟨dt, mi, hdt, hmi, hfit, _⟩ := build_small
  obtain ⟨d, m, _, _, f', hrun, _, htiles, _, _, _, _, hlen⟩ :=
    writeIndex_tiles (representable_of_build hdt hmi (by decide) (by decide)) hfit ⟨.empty, 0, false⟩
  exact ⟨dt, mi, hdt, hmi, d, m, f', hrun, htiles, hlen⟩

end WriteIndex

end SearchEngine
