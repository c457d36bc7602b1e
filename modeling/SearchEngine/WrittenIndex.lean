import SearchEngine.IndexLayout
import SearchEngine.WriteIndex

namespace SearchEngine.WriteIndex

open FileProgram Layout Program OpenFile

variable {V : Type} {F : ElementFormat V} {fn : WriteElementFn V}

/-- The function writes an element in the format, wherever there is room. -/
def Serializes (fn : WriteElementFn V) (F : ElementFormat V) (kv : HTKeyValue V) : Prop :=
  ∀ off : Nat, off + F.size kv < 2 ^ 31 → Writes off (F.encode off kv) (fn off kv) (F.size kv)

theorem Serializes.congr {G : ElementFormat V} {kv : HTKeyValue V} (h : Serializes fn F kv)
    (hsize : G.size kv = F.size kv) (hencode : ∀ off, G.encode off kv = F.encode off kv) : Serializes fn G kv := by
  intro off hfit
  rw [hencode, hsize]
  exact h off (hsize ▸ hfit)

theorem writeHTBucketRecord_writes (off n pos : Nat) :
    Writes off (BucketRecord.mk n pos).toDisk (writeHTBucketRecord off n pos) 8 := by
  intro image p linked
  exact ⟨_, by simp [writeHTBucketRecord, BucketRecord.sizeof]; rfl⟩

theorem writeElements_writes (kvs : List (HTKeyValue V)) (hfn : ∀ kv ∈ kvs, Serializes fn F kv) (rp p : Nat)
    (hroom : rp + 4 * kvs.length ≤ p) (hfit : p + total F.size kvs < 2 ^ 31) (image : FileImage) (pos : Nat)
    (linked : Bool) :
    ∃ pos', (writeElements fn kvs rp p).run handle ⟨image, pos, linked⟩ =
      .ok (some ((p + total F.size kvs : Nat) : Int),
        ⟨(image.patch rp (layout F.size ElementFormat.positionRecord p kvs)).patch p
          (layout F.size F.encode p kvs), pos', linked⟩) := by
  induction kvs generalizing rp p image pos with
  | nil => exact ⟨pos, by simp [writeElements, layout]⟩
  | cons kv kvs ih =>
      simp only [List.length_cons, total_cons] at hroom hfit
      obtain ⟨pos₁, helem⟩ := hfn kv (by simp) p (by omega)
        (image.patch rp (ElementPositionRecord.mk p).toDisk) (rp + (ElementPositionRecord.mk p).toDisk.length) linked
      obtain ⟨pos₂, hrest⟩ := ih (fun kv' h => hfn kv' (by simp [h])) (rp + 4) (p + F.size kv) (by omega) (by omega)
        ((image.patch rp (ElementPositionRecord.mk p).toDisk).patch p (F.encode p kv)) pos₁
      refine ⟨pos₂, ?_⟩
      have hadd := run_addInt (Int.natCast_nonneg p) (Int.natCast_nonneg (F.size kv)) (by omega)
      have hrec : int32 ((rp : Int) + ElementPositionRecord.sizeof) = ((rp + 4 : Nat) : Int) := by
        rw [ElementPositionRecord.sizeof, int32_of_lt] <;> omega
      rw [← patch_layout_cons F.size ElementFormat.positionRecord F.encode rp p kv kvs image
        (ElementPositionRecord.length_toDisk _) (F.length_encode kv p) (by rw [F.length_positionRecords]; omega)]
      simp only [writeElements, run_bind, run_fseek, Int.natCast_nonneg, decide_true, if_true, ok_bind,
        Int.toNat_natCast, run_fwrite, Bool.not_true, Bool.false_eq_true, if_false, helem]
      rw [if_neg (by omega)]
      simp only [run_bind, hadd, ok_bind, hrec]
      rw [show ((p : Int) + (F.size kv : Int)) = ((p + F.size kv : Nat) : Int) by omega, hrest]
      simp only [total_cons, Nat.add_assoc]
      rfl

theorem writeHTBucket_writes (li : LinkedList (HTKeyValue V)) (hfn : ∀ kv ∈ li.payloads, Serializes fn F kv)
    (off : Nat) (hfit : off + F.bucketSize li < 2 ^ 31) :
    Writes off (F.bucketBytes off li) (writeHTBucket fn off li) (F.bucketSize li) := by
  intro image pos linked
  by_cases hempty : li.numElements = 0
  · refine ⟨pos, ?_⟩
    rw [F.bucketBytes_empty hempty, F.bucketSize_empty hempty, FileImage.patch_nil]
    simp [writeHTBucket, hempty]
  · have hsize : F.bucketSize li = 4 * li.numElements + total F.size li.payloads := rfl
    obtain ⟨pos', hloop⟩ := writeElements_writes li.payloads hfn off (off + 4 * li.numElements)
      (by rw [LinkedList.length_payloads]) (by omega) image pos linked
    refine ⟨pos', ?_⟩
    have hpos : int32 ((off : Int) + ElementPositionRecord.sizeof * li.numElements) =
        ((off + 4 * li.numElements : Nat) : Int) := by
      rw [ElementPositionRecord.sizeof, int32_of_lt] <;> omega
    have hlen : (layout F.size ElementFormat.positionRecord (off + 4 * li.numElements) li.payloads).length =
        4 * li.numElements := by
      rw [F.length_positionRecords, LinkedList.length_payloads]
    have hpatch := FileImage.patch_append image off
      (layout F.size ElementFormat.positionRecord (off + 4 * li.numElements) li.payloads)
      (layout F.size F.encode (off + 4 * li.numElements) li.payloads)
    rw [hlen] at hpatch
    simp only [writeHTBucket, hempty, if_false, hpos, run_bind, hloop, ok_bind, hpatch, ElementFormat.bucketBytes]
    rw [run_subInt (by omega) (by omega) (by omega)]
    simp only [Except.ok.injEq, Prod.mk.injEq, and_true]
    omega

theorem writeBuckets_writes (lis : List (LinkedList (HTKeyValue V)))
    (hfn : ∀ li ∈ lis, ∀ kv ∈ li.payloads, Serializes fn F kv) (rp p : Nat) (hroom : rp + 8 * lis.length ≤ p)
    (hfit : p + total F.bucketSize lis < 2 ^ 31) (image : FileImage) (pos : Nat) (linked : Bool) :
    ∃ pos', (writeBuckets fn lis rp p).run handle ⟨image, pos, linked⟩ =
      .ok (some ((p + total F.bucketSize lis : Nat) : Int),
        ⟨(image.patch rp (layout F.bucketSize ElementFormat.bucketRecord p lis)).patch p
          (layout F.bucketSize F.bucketBytes p lis), pos', linked⟩) := by
  induction lis generalizing rp p image pos with
  | nil => exact ⟨pos, by simp [writeBuckets, layout]⟩
  | cons li lis ih =>
      simp only [List.length_cons, total_cons] at hroom hfit
      have hwrites : Writes rp (ElementFormat.bucketRecord p li) (writeHTBucketRecord rp li.numElements p) 8 :=
        writeHTBucketRecord_writes rp li.numElements p
      obtain ⟨pos₁, hrecord⟩ := hwrites image pos linked
      obtain ⟨pos₂, hbucket⟩ := writeHTBucket_writes li (hfn li (by simp)) p (by omega)
        (image.patch rp (ElementFormat.bucketRecord p li)) pos₁ linked
      have hadd := run_addInt (Int.natCast_nonneg rp) (by decide : (0 : Int) ≤ 8) (by omega)
      rw [← patch_layout_cons F.bucketSize ElementFormat.bucketRecord F.bucketBytes rp p li lis image
        (BucketRecord.length_toDisk _) (F.length_bucketBytes li p) (by rw [F.length_bucketRecords]; omega)]
      simp only [writeBuckets, run_bind, hrecord, ok_bind]
      rw [if_neg (by decide)]
      simp only [run_bind, hadd, ok_bind]
      by_cases hempty : li.numElements = 0
      · obtain ⟨pos₃, hrest⟩ := ih (fun li' h => hfn li' (by simp [h])) (rp + 8) p (by omega) (by omega)
          (image.patch rp (ElementFormat.bucketRecord p li)) pos₁
        refine ⟨pos₃, ?_⟩
        rw [if_pos hempty, show ((rp : Int) + 8) = ((rp + 8 : Nat) : Int) by omega, hrest]
        simp only [total_cons, F.bucketSize_empty hempty, F.bucketBytes_empty hempty, FileImage.patch_nil,
          Nat.add_zero, Nat.zero_add]
      · obtain ⟨pos₃, hrest⟩ := ih (fun li' h => hfn li' (by simp [h])) (rp + 8) (p + F.bucketSize li) (by omega)
          (by omega) ((image.patch rp (ElementFormat.bucketRecord p li)).patch p (F.bucketBytes p li)) pos₂
        have hadd' := run_addInt (Int.natCast_nonneg p) (Int.natCast_nonneg (F.bucketSize li)) (by omega)
        refine ⟨pos₃, ?_⟩
        rw [if_neg hempty]
        simp only [run_bind, hbucket, ok_bind]
        rw [if_neg (by rw [kFailedWrite]; omega)]
        simp only [run_bind, hadd', ok_bind]
        rw [show ((rp : Int) + 8) = ((rp + 8 : Nat) : Int) by omega,
          show ((p : Int) + (F.bucketSize li : Int)) = ((p + F.bucketSize li : Nat) : Int) by omega, hrest]
        simp only [total_cons, Nat.add_assoc]

theorem writeHashTable_writes (t : HashTable V) (hfn : ∀ kv ∈ t.pairs, Serializes fn F kv) (off : Nat)
    (hfit : off + F.tableSize t < 2 ^ 31) :
    Writes off (F.tableBytes off t) (writeHashTable fn off t) (F.tableSize t) := by
  intro image pos linked
  have hsize := F.tableSize_buckets t
  have hrp : int32 ((off : Int) + BucketListHeader.sizeof) = ((off + 4 : Nat) : Int) := by
    rw [BucketListHeader.sizeof, int32_of_lt] <;> omega
  have hp : int32 ((off : Int) + BucketListHeader.sizeof + t.numBuckets * BucketRecord.sizeof) =
      ((off + 4 + 8 * t.numBuckets : Nat) : Int) := by
    rw [BucketListHeader.sizeof, BucketRecord.sizeof, int32_of_lt] <;> omega
  obtain ⟨pos', hloop⟩ := writeBuckets_writes t.buckets
    (fun li hli kv hkv => hfn kv (List.mem_flatMap.mpr ⟨li, hli, hkv⟩)) (off + 4) (off + 4 + 8 * t.numBuckets)
    (by rw [t.size]) (by omega) (image.patch off (BucketListHeader.mk t.numBuckets).toDisk)
    (off + (BucketListHeader.mk t.numBuckets).toDisk.length) linked
  refine ⟨pos', ?_⟩
  have hheader := FileImage.patch_append image off (BucketListHeader.mk t.numBuckets).toDisk
    (layout F.bucketSize ElementFormat.bucketRecord (off + 4 + 8 * t.numBuckets) t.buckets)
  rw [BucketListHeader.length_toDisk] at hheader
  have hall := FileImage.patch_append image off ((BucketListHeader.mk t.numBuckets).toDisk ++
    layout F.bucketSize ElementFormat.bucketRecord (off + 4 + 8 * t.numBuckets) t.buckets)
    (layout F.bucketSize F.bucketBytes (off + 4 + 8 * t.numBuckets) t.buckets)
  rw [List.length_append, F.length_bucketRecords, BucketListHeader.length_toDisk, t.size, ← Nat.add_assoc,
    List.append_assoc] at hall
  simp only [writeHashTable, run_bind, run_fseek, Int.natCast_nonneg, decide_true, if_true, ok_bind,
    Int.toNat_natCast, run_fwrite, Bool.not_true, Bool.false_eq_true, if_false, hrp, hp, hloop, hheader, hall,
    ElementFormat.tableBytes]
  rw [run_subInt (by omega) (by omega) (by omega)]
  simp only [Except.ok.injEq, Prod.mk.injEq, and_true]
  omega

theorem take_length_int16 {bs : Bytes} (h : bs.length ≤ 32767) :
    int16 bs.length = bs.length ∧ bs.take (int16 bs.length).toNat = bs := by
  have hlen : int16 bs.length = bs.length := int16_of_lt (by omega) (by omega)
  refine ⟨hlen, ?_⟩
  rw [hlen, Int.toNat_natCast, List.take_length]

theorem docname_cut {kv : HTKeyValue Bytes} (hpos : 0 < int16 kv.value.length) :
    Serializes writeDocidToDocnameFn cutDocFormat kv := by
  intro off hfit image pos linked
  have hsize : cutDocFormat.size kv = 10 + (int16 kv.value.length).toNat := rfl
  have hencode : cutDocFormat.encode off kv = (DoctableElementHeader.mk kv.key (int16 kv.value.length)).toDisk ++
      kv.value.take (int16 kv.value.length).toNat := rfl
  have hret : int32 ((DoctableElementHeader.sizeof : Int) + int16 kv.value.length) = (cutDocFormat.size kv : Int) := by
    rw [DoctableElementHeader.sizeof, hsize, int32_of_lt] <;> omega
  rw [hencode]
  simp only [writeDocidToDocnameFn, hret]
  generalize int16 kv.value.length = n at hpos
  have hitem : fwriteItem kv.value n = fwrite (kv.value.take n.toNat) := by
    rw [fwriteItem, if_neg (by omega), if_neg (by omega)]
  have hpatch := FileImage.patch_append image off (DoctableElementHeader.mk kv.key n).toDisk (kv.value.take n.toNat)
  refine ⟨off + (DoctableElementHeader.mk kv.key n).toDisk.length + (kv.value.take n.toNat).length, ?_⟩
  simp only [hitem, run_bind, run_fseek, Int.natCast_nonneg, decide_true, if_true, ok_bind, Int.toNat_natCast,
    run_fwrite, Bool.not_true, Bool.false_eq_true, if_false, run_pure, hpatch]

theorem docname_serializes {kv : HTKeyValue Bytes} (hne : kv.value ≠ []) (hle : kv.value.length ≤ 32767) :
    Serializes writeDocidToDocnameFn docFormat kv := by
  obtain ⟨hlen, htake⟩ := take_length_int16 hle
  have hpos : 0 < kv.value.length := List.length_pos_iff.mpr hne
  apply (docname_cut (by omega)).congr
  · change 10 + kv.value.length = 10 + (int16 kv.value.length).toNat
    omega
  · intro off
    change (DoctableElementHeader.mk kv.key kv.value.length).toDisk ++ kv.value =
      (DoctableElementHeader.mk kv.key (int16 kv.value.length)).toDisk ++ kv.value.take (int16 kv.value.length).toNat
    rw [htake, hlen]

theorem writePositions_run (ps : List UInt64) (image : FileImage) (pos : Nat) (linked : Bool) :
    (writePositions ps).run handle ⟨image, pos, linked⟩ =
      .ok (true, ⟨image.patch pos (positionsBytes ps), pos + 4 * ps.length, linked⟩) := by
  induction ps generalizing image pos with
  | nil => simp [writePositions, positionsBytes]
  | cons p ps ih =>
      have hpatch := FileImage.patch_append image pos (DocIDElementPosition.mk p.toUInt32).toDisk (positionsBytes ps)
      rw [DocIDElementPosition.length_toDisk] at hpatch
      simp only [writePositions, run_bind, run_fwrite, ok_bind, Bool.not_true, Bool.false_eq_true, if_false, ih,
        DocIDElementPosition.length_toDisk, hpatch, List.length_cons]
      simp only [positionsBytes, List.flatMap_cons, Except.ok.injEq, Prod.mk.injEq, OpenFile.mk.injEq, true_and,
        and_true]
      omega

theorem posting_serializes (kv : HTKeyValue Postings) : Serializes writeDocIDToPositionListFn postingFormat kv := by
  intro off hfit image pos linked
  have hsize : postingFormat.size kv = 12 + 4 * kv.value.numElements := rfl
  have hpatch := FileImage.patch_append image off (DocIDElementHeader.mk kv.key kv.value.numElements).toDisk
    (positionsBytes kv.value.payloads)
  have hret : int32 ((DocIDElementHeader.sizeof : Int) + kv.value.numElements * DocIDElementPosition.sizeof) =
      (postingFormat.size kv : Int) := by
    rw [DocIDElementHeader.sizeof, DocIDElementPosition.sizeof, hsize, int32_of_lt] <;> omega
  refine ⟨off + (DocIDElementHeader.mk kv.key kv.value.numElements).toDisk.length + 4 * kv.value.payloads.length, ?_⟩
  simp only [writeDocIDToPositionListFn, run_bind, run_fseek, Int.natCast_nonneg, decide_true, if_true, ok_bind,
    Int.toNat_natCast, run_fwrite, Bool.not_true, Bool.false_eq_true, if_false, run_pure, writePositions_run, hpatch,
    hret]
  rfl

theorem word_cut {kv : HTKeyValue WordPostings} (hnonneg : 0 ≤ int16 kv.value.word.length) :
    Serializes writeWordToPostingsFn cutWordFormat kv := by
  intro off hfit image pos linked
  have hsize : cutWordFormat.size kv =
      6 + (int16 kv.value.word.length).toNat + postingFormat.tableSize kv.value.postings := rfl
  have hencode : cutWordFormat.encode off kv =
      (WordPostingsHeader.mk (int16 kv.value.word.length) (postingFormat.tableSize kv.value.postings)).toDisk ++
        (kv.value.word.take (int16 kv.value.word.length).toNat ++
          postingFormat.tableBytes (off + 6 + (int16 kv.value.word.length).toNat) kv.value.postings) := rfl
  have hlen : (kv.value.word.take (int16 kv.value.word.length).toNat).length = (int16 kv.value.word.length).toNat := by
    rw [List.length_take]
    have hle := toNat_int16_le kv.value.word.length
    omega
  have hoff : int32 ((off : Int) + WordPostingsHeader.sizeof + int16 kv.value.word.length) =
      ((off + 6 + (int16 kv.value.word.length).toNat : Nat) : Int) := by
    rw [WordPostingsHeader.sizeof, int32_of_lt] <;> omega
  have hret : int32 ((WordPostingsHeader.sizeof : Int) + int16 kv.value.word.length +
      postingFormat.tableSize kv.value.postings) = (cutWordFormat.size kv : Int) := by
    rw [WordPostingsHeader.sizeof, hsize, int32_of_lt] <;> omega
  have hchars : ∀ f : OpenFile, (fwriteChars kv.value.word (int16 kv.value.word.length)).run handle f =
      .ok (true, ⟨f.image.patch f.pos (kv.value.word.take (int16 kv.value.word.length).toNat),
        f.pos + (int16 kv.value.word.length).toNat, f.linked⟩) := by
    intro f
    by_cases hempty : int16 kv.value.word.length = 0
    · simp [fwriteChars, hempty]
    · rw [fwriteChars, if_neg (by omega), if_neg hempty, run_fwrite, hlen]
  rw [hencode]
  rw [hsize] at hfit hret ⊢
  simp only [writeWordToPostingsFn, hoff]
  generalize int16 kv.value.word.length = n at *
  generalize kv.value.word.take n.toNat = letters at *
  obtain ⟨pos₁, htable⟩ := writeHashTable_writes kv.value.postings (fun p _ => posting_serializes p)
    (off + 6 + n.toNat) (by omega) image pos linked
  -- the nested table is written first, the header and the word before it then fill the room that was left
  let header := (WordPostingsHeader.mk n (postingFormat.tableSize kv.value.postings)).toDisk
  let table := postingFormat.tableBytes (off + 6 + n.toNat) kv.value.postings
  have hhead := FileImage.patch_append (image.patch (off + 6 + n.toNat) table) off header letters
  rw [WordPostingsHeader.length_toDisk] at hhead
  have hlenHead : (header ++ letters).length = 6 + n.toNat := by
    rw [List.length_append, WordPostingsHeader.length_toDisk, hlen]
  have hcomm : (image.patch (off + 6 + n.toNat) table).patch off (header ++ letters) =
      (image.patch off (header ++ letters)).patch (off + 6 + n.toNat) table :=
    (FileImage.patch_comm (by omega)).symm
  have hall := FileImage.patch_append image off (header ++ letters) table
  rw [hlenHead, ← Nat.add_assoc, List.append_assoc] at hall
  refine ⟨off + 6 + n.toNat, ?_⟩
  have hseek : (0 : Int) ≤ (off : Int) + WordPostingsHeader.sizeof := by omega
  have hat : ((off : Int) + WordPostingsHeader.sizeof).toNat = off + 6 := by
    rw [WordPostingsHeader.sizeof]
    omega
  simp only [run_bind, htable, ok_bind]
  rw [if_neg (by rw [kFailedWrite]; omega)]
  simp only [run_bind, run_fseek, Int.natCast_nonneg, decide_true, if_true, ok_bind, Int.toNat_natCast, run_fwrite,
    Bool.not_true, Bool.false_eq_true, if_false, hseek, hat, hchars, run_pure, hret]
  rw [hhead, hcomm, hall]

theorem word_serializes {kv : HTKeyValue WordPostings} (hle : kv.value.word.length ≤ 32767) :
    Serializes writeWordToPostingsFn wordFormat kv := by
  obtain ⟨hlen, htake⟩ := take_length_int16 hle
  have htoNat : (int16 kv.value.word.length).toNat = kv.value.word.length := by omega
  apply (word_cut (by omega)).congr
  · change 6 + kv.value.word.length + postingFormat.tableSize kv.value.postings =
      6 + (int16 kv.value.word.length).toNat + postingFormat.tableSize kv.value.postings
    omega
  · intro off
    change (WordPostingsHeader.mk kv.value.word.length (postingFormat.tableSize kv.value.postings)).toDisk ++
        (kv.value.word ++ postingFormat.tableBytes (off + 6 + kv.value.word.length) kv.value.postings) =
      (WordPostingsHeader.mk (int16 kv.value.word.length) (postingFormat.tableSize kv.value.postings)).toDisk ++
        (kv.value.word.take (int16 kv.value.word.length).toNat ++
          postingFormat.tableBytes (off + 6 + (int16 kv.value.word.length).toNat) kv.value.postings)
    rw [htake, htoNat, hlen]

theorem readIntoCRC_run (bs : Bytes) (crc crc' : CRC32) (hfold : crc.foldBytes bs = .ok crc') (image : FileImage)
    (pos : Nat) (linked : Bool) (h : image.Holds pos bs) :
    (readIntoCRC bs.length crc).run handle ⟨image, pos, linked⟩ =
      .ok (some crc', ⟨image, pos + bs.length, linked⟩) := by
  induction bs generalizing crc pos with
  | nil =>
      obtain rfl : crc = crc' := by simpa [CRC32.foldBytes] using hfold
      simp [readIntoCRC]
  | cons b bs ih =>
      have hcons : b :: bs = [b] ++ bs := rfl
      rw [hcons, CRC32.foldBytes_append] at hfold
      obtain ⟨crc₁, hb, hrest⟩ := Run.bind_eq_ok.mp hfold
      rw [hcons, FileImage.holds_append] at h
      have hread := run_fread (f := ⟨image, pos, linked⟩) h.1 (by simp)
      rw [List.length_singleton] at hread
      simp only [List.length_cons, readIntoCRC, run_bind, hread, ok_bind, hb, run_ofRun_ok,
        ih crc₁ hrest (pos + 1) h.2]
      congr 3
      omega

/-- The words and names for which the 16-bit length fields are right. -/
structure Representable (mi : MemIndex) (dt : DocTable) : Prop where
  names : ∀ kv ∈ dt.idToName.pairs, kv.value ≠ [] ∧ kv.value.length ≤ 32767
  words : ∀ kv ∈ mi.pairs, kv.value.word.length ≤ 32767

theorem writeHeader_run {d m : Nat} (hfit : d + m < 2 ^ 31) {bs : Bytes} (hlen : bs.length = d + m) {crc : CRC32}
    (hfold : CRC32.new.foldBytes bs = .ok crc) {image : FileImage} (hholds : image.Holds 16 bs) (pos : Nat)
    (linked : Bool) :
    ∃ pos', (writeHeader d m).run handle ⟨image, pos, linked⟩ =
      .ok (16, ⟨image.patch 0 (IndexFileHeader.mk kMagicNumber crc.getFinalCRC.1 d m).toDisk, pos', linked⟩) := by
  have hadd := run_addInt (Int.natCast_nonneg d) (Int.natCast_nonneg m) (by omega)
  have hcount : ((d : Int) + m).toNat = bs.length := by omega
  have hcrc := readIntoCRC_run _ _ _ hfold image 16 linked hholds
  refine ⟨16, ?_⟩
  have hstart : (0 : Int) ≤ IndexFileHeader.sizeof := by decide
  have hat : ((IndexFileHeader.sizeof : Nat) : Int).toNat = 16 := rfl
  simp only [writeHeader, run_bind, run_fseek, hstart, decide_true, if_true, ok_bind, hat, Bool.not_true,
    Bool.false_eq_true, if_false, hadd, hcount, hcrc, Int.le_refl, run_fwrite, Int.toNat_zero, run_sync,
    run_verify333, run_pure]
  rfl

theorem writeHeader_writes {mi : MemIndex} {dt : DocTable} (hfit : indexSize mi dt < 2 ^ 31) {checksum : UInt32}
    (hsum : CRC32.checksum (tablesBytes mi dt) = .ok checksum) (image : FileImage)
    (hholds : image.Holds 16 (tablesBytes mi dt)) (pos : Nat) (linked : Bool) :
    ∃ pos', (writeHeader (docFormat.tableSize dt.idToName) (wordFormat.tableSize mi)).run handle
      ⟨image, pos, linked⟩ = .ok (16, ⟨image.patch 0 (indexHeader mi dt checksum).toDisk, pos', linked⟩) := by
  obtain ⟨crc, hfold, hret⟩ := Run.bind_eq_ok.mp hsum
  obtain rfl : crc.getFinalCRC.1 = checksum := by simpa using hret
  have hsize := indexSize_eq mi dt
  have hlen := length_tablesBytes mi dt
  exact writeHeader_run (by omega) (by omega) hfold hholds pos linked

theorem writeDocTable_writes {mi : MemIndex} {dt : DocTable} (hrep : Representable mi dt)
    (hfit : indexSize mi dt < 2 ^ 31) :
    Writes 16 (docFormat.tableBytes 16 dt.idToName) (writeDocTable dt (16 : Nat))
      (docFormat.tableSize dt.idToName) := by
  have hsize := indexSize_eq mi dt
  exact writeHashTable_writes dt.idToName
    (fun kv hkv => docname_serializes (hrep.names kv hkv).1 (hrep.names kv hkv).2) 16 (by omega)

theorem writeMemIndex_writes {mi : MemIndex} {dt : DocTable} (hrep : Representable mi dt)
    (hfit : indexSize mi dt < 2 ^ 31) :
    Writes (16 + docFormat.tableSize dt.idToName) (wordFormat.tableBytes (16 + docFormat.tableSize dt.idToName) mi)
      (writeMemIndex mi (16 + docFormat.tableSize dt.idToName : Nat)) (wordFormat.tableSize mi) := by
  have hsize := indexSize_eq mi dt
  exact writeHashTable_writes mi (fun kv hkv => word_serializes (hrep.words kv hkv)) _ (by omega)

/-- The two tables, written into the new file one after the other. -/
theorem writeTables_run {mi : MemIndex} {dt : DocTable} (hrep : Representable mi dt)
    (hfit : indexSize mi dt < 2 ^ 31) :
    ∃ pos₁ pos₂, (writeDocTable dt (16 : Nat)).run handle ⟨.empty, 0, true⟩ =
        .ok ((docFormat.tableSize dt.idToName : Int),
          ⟨FileImage.empty.patch 16 (docFormat.tableBytes 16 dt.idToName), pos₁, true⟩) ∧
      (writeMemIndex mi (16 + docFormat.tableSize dt.idToName : Nat)).run handle
          ⟨FileImage.empty.patch 16 (docFormat.tableBytes 16 dt.idToName), pos₁, true⟩ =
        .ok ((wordFormat.tableSize mi : Int), ⟨FileImage.empty.patch 16 (tablesBytes mi dt), pos₂, true⟩) := by
  obtain ⟨pos₁, hdocs⟩ := writeDocTable_writes hrep hfit FileImage.empty 0 true
  obtain ⟨pos₂, hwords⟩ := writeMemIndex_writes hrep hfit
    (FileImage.empty.patch 16 (docFormat.tableBytes 16 dt.idToName)) pos₁ true
  have htables := FileImage.patch_append FileImage.empty 16 (docFormat.tableBytes 16 dt.idToName)
    (wordFormat.tableBytes (16 + docFormat.tableSize dt.idToName) mi)
  rw [ElementFormat.length_tableBytes, ← tablesBytes] at htables
  rw [htables] at hwords
  exact ⟨pos₁, pos₂, hdocs, hwords⟩

/-- How WriteIndex goes on any disk, when none of its parts fails. -/
theorem run_writeIndex {σ : Type} {handle : FileOp → σ → FileReply × σ} {mi : MemIndex} {dt : DocTable} {d m : Nat}
    {s s₀ s₁ s₂ s₃ s₄ : σ} {closed : Bool} (hfit : 16 + d + m < 2 ^ 31)
    (hcreate : (FileProgram.succeeds .create).run handle s = .ok (true, s₀))
    (hdocs : (writeDocTable dt (16 : Nat)).run handle s₀ = .ok ((d : Int), s₁))
    (hwords : (writeMemIndex mi (16 + d : Nat)).run handle s₁ = .ok ((m : Int), s₂))
    (hheader : (writeHeader d m).run handle s₂ = .ok (16, s₃))
    (hclose : (FileProgram.succeeds .close).run handle s₃ = .ok (closed, s₄)) :
    (writeIndex mi dt).run handle s = .ok (((16 + d + m : Nat) : Int), s₄) := by
  have hadd : addInt (16 : Nat) d = pure ((16 + d : Nat) : Int) := by
    rw [addInt, intSum_eq (by omega) (by omega)]
    rfl
  have hadd' : addInt (16 + d : Nat) m = pure ((16 + d + m : Nat) : Int) := by
    rw [addInt, intSum_eq (by omega) (by omega)]
    rfl
  simp only [writeIndex, IndexFileHeader.sizeof, run_bind, hcreate, ok_bind, Bool.not_true, Bool.false_eq_true,
    if_false, hdocs]
  rw [if_neg (by rw [kFailedWrite]; omega)]
  simp only [hadd, run_bind, run_pure, ok_bind, hwords]
  rw [if_neg (by rw [kFailedWrite]; omega)]
  simp only [hadd', run_bind, run_pure, ok_bind, hheader]
  rw [if_neg (by decide)]
  simp only [run_bind, hclose, ok_bind, run_pure]

/-- What WriteIndex leaves in the file: the header and the two tables. -/
theorem writeIndex_writes {mi : MemIndex} {dt : DocTable} (hrep : Representable mi dt)
    (hfit : indexSize mi dt < 2 ^ 31) (f : OpenFile) :
    ∃ checksum pos, CRC32.checksum (tablesBytes mi dt) = .ok checksum ∧
      (writeIndex mi dt).run handle f = .ok ((indexSize mi dt : Int),
        ⟨FileImage.empty.patch 0 ((indexHeader mi dt checksum).toDisk ++ tablesBytes mi dt), pos, true⟩) := by
  obtain ⟨checksum, hsum, _⟩ := CRC32.checksum_run (tablesBytes mi dt)
  obtain ⟨pos₁, pos₂, hdocs, hwords⟩ := writeTables_run hrep hfit
  obtain ⟨pos₃, hheader⟩ := writeHeader_writes hfit hsum (FileImage.empty.patch 16 (tablesBytes mi dt))
    (FileImage.holds_patch _ _ _) pos₂ true
  have hcomm := FileImage.patch_append FileImage.empty 0 (indexHeader mi dt checksum).toDisk
    (tablesBytes mi dt)
  rw [IndexFileHeader.length_toDisk, Nat.zero_add, FileImage.patch_comm (by simp)] at hcomm
  rw [hcomm] at hheader
  exact ⟨checksum, pos₃, hsum, run_writeIndex hfit (run_create f) hdocs hwords hheader (run_close _)⟩

end SearchEngine.WriteIndex
