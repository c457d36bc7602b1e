import SearchEngine.FileIndexReader
import SearchEngine.IndexLookup

/-! What the readers find in the tables of an index file. -/

namespace SearchEngine

open FileProgram HashTableReader Layout Program OpenFile

variable {image : FileImage} {off : Nat}

theorem HashTableReader.readChars_run (bs : Bytes) (pos : Nat) (linked : Bool) (h : image.Holds pos bs) :
    (readChars bs.length).run handle ⟨image, pos, linked⟩ = .ok (bs, ⟨image, pos + bs.length, linked⟩) := by
  induction bs generalizing pos with
  | nil => rfl
  | cons b bs ih =>
      have hcons : b :: bs = [b] ++ bs := rfl
      rw [hcons, FileImage.holds_append] at h
      have hread := run_freadVerified (f := ⟨image, pos, linked⟩) h.1 List.length_singleton (by decide)
      simp only [List.length_cons, readChars, run_bind, hread, ok_bind, ih (pos + 1) h.2, run_pure]
      congr 3
      omega

namespace DocTableReader

theorem matchDocID_holds {name : Bytes} (hle : name.length ≤ 32767) (key docId : UInt64) {q : Nat}
    (h : image.Holds q ((DoctableElementHeader.mk key name.length).toDisk ++ name)) :
    Returns image (matchDocID docId q) (if key = docId then some name else none) := by
  intro pos linked
  obtain ⟨hheader, hname⟩ := FileImage.holds_append.mp h
  rw [DoctableElementHeader.length_toDisk] at hname
  have hread := run_freadVerified (f := ⟨image, q, linked⟩) hheader (DoctableElementHeader.length_toDisk _) (by decide)
  have hlen : int16 name.length = name.length := int16_of_lt (by omega) (by omega)
  simp only [matchDocID, run_bind, run_fseekVerified (Int.natCast_nonneg _), Int.toNat_natCast, ok_bind,
    DoctableElementHeader.sizeof, hread, DoctableElementHeader.ofDisk_toDisk, hlen]
  by_cases hkey : key = docId
  · refine ⟨q + 10 + name.length, ?_⟩
    simp only [hkey, if_true, run_bind, readChars_run _ _ _ hname, ok_bind, run_pure]
  · refine ⟨q + 10, ?_⟩
    simp only [hkey, if_false, run_pure]

theorem matchDocID_returns {kv : HTKeyValue Bytes} (hle : kv.value.length ≤ 32767) (docId : UInt64) {q : Nat}
    (h : image.Holds q (docFormat.encode q kv)) :
    Returns image (matchDocID docId q) (if kv.key = docId then some kv.value else none) :=
  matchDocID_holds hle kv.key docId h

theorem lookupDocID_returns {t : HashTable Bytes} (ht : TableAt docFormat image off t)
    (hnames : ∀ kv ∈ t.pairs, kv.value.length ≤ 32767) (docId : UInt64) :
    Returns image (lookupDocID (readerAt off t) docId) (t.lookup docId) := by
  have h := lookup_key_returns (matchDocID docId) id ht docId
    fun kv hkv q hq _ => matchDocID_returns (hnames kv hkv) docId hq
  rwa [Option.map_id] at h

end DocTableReader

namespace DocIDTableReader

theorem readPositionList_run (ps : List UInt64) (pos : Nat) (linked : Bool) (h : image.Holds pos (positionsBytes ps)) :
    (readPositionList ps.length).run handle ⟨image, pos, linked⟩ =
      .ok (ps.map UInt64.toUInt32, ⟨image, pos + 4 * ps.length, linked⟩) := by
  induction ps generalizing pos with
  | nil => rfl
  | cons p ps ih =>
      rw [positionsBytes, List.flatMap_cons, FileImage.holds_append, DocIDElementPosition.length_toDisk] at h
      have hread := run_freadVerified (f := ⟨image, pos, linked⟩) h.1 (DocIDElementPosition.length_toDisk _) (by decide)
      simp only [List.length_cons, readPositionList, run_bind, DocIDElementPosition.sizeof, hread, ok_bind,
        DocIDElementPosition.ofDisk_toDisk, ih (pos + 4) h.2, run_pure, List.map_cons]
      congr 3
      omega

def diskPositions (p : Postings) : List UInt32 := p.payloads.map UInt64.toUInt32

theorem numElements_lt {kv : HTKeyValue Postings} {q : Nat} (hfit : q + postingFormat.size kv < 2 ^ 31) :
    int32 kv.value.numElements = kv.value.numElements := by
  have hsize : postingFormat.size kv = 12 + 4 * kv.value.numElements := rfl
  exact int32_of_lt (by omega) (by omega)

theorem readHeader_run {kv : HTKeyValue Postings} {q : Nat} (h : image.Holds q (postingFormat.encode q kv))
    (hfit : q + postingFormat.size kv < 2 ^ 31) (linked : Bool) :
    ∃ bs, (freadVerified DocIDElementHeader.sizeof).run handle ⟨image, q, linked⟩ =
        .ok (bs, ⟨image, q + 12, linked⟩) ∧
      DocIDElementHeader.ofDisk bs = ⟨kv.key, kv.value.numElements⟩ := by
  have hread := run_freadVerified (f := ⟨image, q, linked⟩) (FileImage.holds_append.mp h).1
    (DocIDElementHeader.length_toDisk _) (by decide)
  exact ⟨_, hread, by rw [DocIDElementHeader.ofDisk_toDisk, numElements_lt hfit]⟩

theorem matchDocID_returns {kv : HTKeyValue Postings} (docId : UInt64) {q : Nat}
    (h : image.Holds q (postingFormat.encode q kv)) (hfit : q + postingFormat.size kv < 2 ^ 31) :
    Returns image (matchDocID docId q) (if kv.key = docId then some (diskPositions kv.value) else none) := by
  intro pos linked
  have hpositions := (FileImage.holds_append.mp h).2
  rw [DocIDElementHeader.length_toDisk] at hpositions
  obtain ⟨bs, hread, hheader⟩ := readHeader_run h hfit linked
  have hlist := readPositionList_run kv.value.payloads (q + 12) linked hpositions
  rw [LinkedList.length_payloads] at hlist
  simp only [matchDocID, run_bind, run_fseekVerified (Int.natCast_nonneg _), Int.toNat_natCast, ok_bind, hread,
    hheader]
  by_cases hkey : kv.key = docId
  · refine ⟨q + 12 + 4 * kv.value.numElements, ?_⟩
    simp only [hkey, if_true, run_bind, hlist, ok_bind, run_pure]
    rfl
  · refine ⟨q + 12, ?_⟩
    simp only [hkey, if_false, run_pure]

theorem lookupDocID_returns {t : HashTable Postings} (ht : TableAt postingFormat image off t) (docId : UInt64) :
    Returns image (lookupDocID (readerAt off t) docId) ((t.lookup docId).map diskPositions) :=
  lookup_key_returns (matchDocID docId) diskPositions ht docId
    fun _ _ _ hq hfit => matchDocID_returns docId hq hfit

/-- What GetDocIDList tells about a document. -/
def headerOf (kv : HTKeyValue Postings) : DocIDElementHeader := ⟨kv.key, kv.value.numElements⟩

theorem bucketDocIDs_returns (kvs : List (HTKeyValue Postings)) (rp j p : Nat)
    (hrecords : image.Holds (rp + 4 * j) (layout postingFormat.size ElementFormat.positionRecord p kvs))
    (helements : image.Holds p (layout postingFormat.size postingFormat.encode p kvs))
    (hfit : p + total postingFormat.size kvs < 2 ^ 31) :
    Returns image (bucketDocIDs rp kvs.length j) (kvs.map headerOf) := by
  induction kvs generalizing j p with
  | nil => exact .pure image []
  | cons kv kvs ih =>
      intro pos linked
      rw [total_cons] at hfit
      rw [layout, FileImage.holds_append, ElementFormat.positionRecord, ElementPositionRecord.length_toDisk] at hrecords
      rw [layout, FileImage.holds_append, postingFormat.length_encode] at helements
      have hread := run_freadVerified (f := ⟨image, rp + 4 * j, linked⟩) hrecords.1
        (ElementPositionRecord.length_toDisk _) (by decide)
      obtain ⟨bs, hheader, hvalue⟩ := readHeader_run helements.1 (by omega) linked
      obtain ⟨pos', hrest⟩ := ih (j + 1) (p + postingFormat.size kv) (by rw [Nat.mul_succ]; exact hrecords.2)
        helements.2 (by omega) (p + 12) linked
      have hseek : (0 : Int) ≤ (rp : Int) + j * (ElementPositionRecord.sizeof : Nat) := by
        rw [ElementPositionRecord.sizeof]
        omega
      have hat : ((rp : Int) + j * (ElementPositionRecord.sizeof : Nat)).toNat = rp + 4 * j := by
        rw [ElementPositionRecord.sizeof]
        omega
      refine ⟨pos', ?_⟩
      simp only [List.length_cons, bucketDocIDs, run_bind, run_fseekVerified hseek, hat, ok_bind]
      simp only [ElementPositionRecord.sizeof, hread, ok_bind, ElementPositionRecord.ofDisk_toDisk,
        int32_of_lt (Int.natCast_nonneg p) (by omega), run_fseekVerified (Int.natCast_nonneg p), Int.toNat_natCast,
        hheader, hvalue, hrest, run_pure]
      rfl

theorem tableDocIDs_returns (lis : List (LinkedList (HTKeyValue Postings))) (off i p : Nat)
    (hrecords : image.Holds (off + 4 + 8 * i) (layout postingFormat.bucketSize ElementFormat.bucketRecord p lis))
    (hbuckets : image.Holds p (layout postingFormat.bucketSize postingFormat.bucketBytes p lis))
    (hfit : p + total postingFormat.bucketSize lis < 2 ^ 31) :
    Returns image (tableDocIDs off lis.length i) ((lis.flatMap LinkedList.payloads).map headerOf) := by
  induction lis generalizing i p with
  | nil => exact .pure image []
  | cons li lis ih =>
      intro pos linked
      have hsize : postingFormat.bucketSize li = 4 * li.numElements + total postingFormat.size li.payloads := rfl
      rw [total_cons] at hfit
      rw [layout, FileImage.holds_append, ElementFormat.bucketRecord, BucketRecord.length_toDisk] at hrecords
      rw [layout, FileImage.holds_append, postingFormat.length_bucketBytes] at hbuckets
      obtain ⟨hbucket, hlater⟩ := hbuckets
      rw [ElementFormat.bucketBytes, FileImage.holds_append, postingFormat.length_positionRecords,
        LinkedList.length_payloads] at hbucket
      have hread := run_freadVerified (f := ⟨image, off + 4 + 8 * i, linked⟩) hrecords.1
        (BucketRecord.length_toDisk _) (by decide)
      obtain ⟨pos₁, hchain⟩ := bucketDocIDs_returns li.payloads p 0 (p + 4 * li.numElements) hbucket.1 hbucket.2
        (by omega) (off + 4 + 8 * i + 8) linked
      rw [LinkedList.length_payloads] at hchain
      obtain ⟨pos₂, hrest⟩ := ih (i + 1) (p + postingFormat.bucketSize li) (by rw [Nat.mul_succ]; exact hrecords.2)
        hlater (by omega) pos₁ linked
      have hseek : (0 : Int) ≤ (off : Int) + (BucketListHeader.sizeof : Nat) + i * (BucketRecord.sizeof : Nat) := by
        rw [BucketListHeader.sizeof, BucketRecord.sizeof]
        omega
      have hat : ((off : Int) + (BucketListHeader.sizeof : Nat) + i * (BucketRecord.sizeof : Nat)).toNat =
          off + 4 + 8 * i := by
        rw [BucketListHeader.sizeof, BucketRecord.sizeof]
        omega
      refine ⟨pos₂, ?_⟩
      simp only [List.length_cons, tableDocIDs, run_bind, run_fseekVerified hseek, hat, ok_bind]
      simp only [BucketRecord.sizeof, hread, ok_bind, BucketRecord.ofDisk_toDisk,
        int32_of_lt (Int.natCast_nonneg p) (by omega), int32_of_lt (Int.natCast_nonneg li.numElements) (by omega),
        Int.toNat_natCast, hchain, hrest, run_pure, List.flatMap_cons, List.map_append]

theorem getDocIDList_returns {t : HashTable Postings} (ht : TableAt postingFormat image off t) :
    Returns image (getDocIDList (readerAt off t)) (t.pairs.map headerOf) := by
  have hsize := postingFormat.tableSize_buckets t
  have hfits := ht.fits
  have h := ht.holds
  rw [ElementFormat.tableBytes, FileImage.holds_append, FileImage.holds_append, BucketListHeader.length_toDisk,
    postingFormat.length_bucketRecords, t.size] at h
  have hloop := tableDocIDs_returns t.buckets off 0 (off + 4 + 8 * t.numBuckets) h.2.1 h.2.2 (by omega)
  rw [t.size] at hloop
  exact hloop

end DocIDTableReader

namespace IndexTableReader

def ReadsPostings (image : FileImage) (wp : WordPostings) (r : HashTableReader) : Prop :=
  ∃ off, r = readerAt off wp.postings ∧ TableAt postingFormat image off wp.postings

/-- What an element with these letters is to a word that is looked up. -/
def MatchesLetters (image : FileImage) (letters word : Bytes) (wp : WordPostings) : Option HashTableReader → Prop
  | none => letters ≠ word
  | some r => letters = word ∧ ReadsPostings image wp r

/-- What the element of an index table is to a word that is looked up. -/
def Matches (image : FileImage) (word : Bytes) (kv : HTKeyValue WordPostings) : Option HashTableReader → Prop
  | none => kv.value.word ≠ word
  | some r => kv.value.word = word ∧ ReadsPostings image kv.value r

theorem matchWord_holds {letters : Bytes} (hle : letters.length ≤ 32767) (wp : WordPostings) (word : Bytes) {q : Nat}
    (h : image.Holds q ((WordPostingsHeader.mk letters.length (postingFormat.tableSize wp.postings)).toDisk ++
      (letters ++ postingFormat.tableBytes (q + 6 + letters.length) wp.postings)))
    (hfit : q + (6 + letters.length + postingFormat.tableSize wp.postings) < 2 ^ 31) :
    ∃ r, Returns image (matchWord word q) r ∧ MatchesLetters image letters word wp r := by
  obtain ⟨hheader, h⟩ := FileImage.holds_append.mp h
  obtain ⟨hword, htable⟩ := FileImage.holds_append.mp h
  rw [WordPostingsHeader.length_toDisk] at hword htable
  have ht : TableAt postingFormat image (q + 6 + letters.length) wp.postings := ⟨htable, by omega⟩
  have hlen : int16 letters.length = letters.length := int16_of_lt (by omega) (by omega)
  have hread (linked : Bool) := run_freadVerified (f := ⟨image, q, linked⟩) hheader
    (WordPostingsHeader.length_toDisk _) (by decide)
  have hoff : int32 ((q : Int) + (WordPostingsHeader.sizeof : Nat) + letters.length) =
      ((q + 6 + letters.length : Nat) : Int) := by
    rw [WordPostingsHeader.sizeof, int32_of_lt] <;> omega
  have hchars (linked : Bool) := readChars_run letters (q + 6) linked hword
  -- the 16-bit length decides first, the characters only when it agrees
  by_cases hlens : toInt word.length = letters.length
  · by_cases heq : word = letters
    · refine ⟨some (readerAt (q + 6 + letters.length) wp.postings), ?_, heq.symm, _, rfl, ht⟩
      intro pos linked
      obtain ⟨pos', hnew⟩ := new_returns ht (q + 6 + letters.length) linked
      refine ⟨pos', ?_⟩
      subst heq
      rw [WordPostingsHeader.sizeof] at hoff
      simp only [matchWord, run_bind, run_fseekVerified (Int.natCast_nonneg _), Int.toNat_natCast, ok_bind,
        WordPostingsHeader.sizeof, hread, WordPostingsHeader.ofDisk_toDisk, hlen, hlens, ne_eq, not_true, if_false,
        hchars, if_true, hoff, hnew, run_pure]
    · refine ⟨none, ?_, Ne.symm heq⟩
      intro pos linked
      refine ⟨q + 6 + letters.length, ?_⟩
      simp only [matchWord, run_bind, run_fseekVerified (Int.natCast_nonneg _), Int.toNat_natCast, ok_bind,
        WordPostingsHeader.sizeof, hread, WordPostingsHeader.ofDisk_toDisk, hlen, hlens, ne_eq, not_true, if_false,
        hchars, heq, run_pure]
  · refine ⟨none, ?_, ?_⟩
    · intro pos linked
      refine ⟨q + 6, ?_⟩
      simp only [matchWord, run_bind, run_fseekVerified (Int.natCast_nonneg _), Int.toNat_natCast, ok_bind,
        WordPostingsHeader.sizeof, hread, WordPostingsHeader.ofDisk_toDisk, hlen, ne_eq, Ne.symm hlens,
        not_false_eq_true, if_true, run_pure]
    · rintro rfl
      exact hlens (toInt_of_lt (by omega))

theorem matchWord_returns {kv : HTKeyValue WordPostings} (hle : kv.value.word.length ≤ 32767) (word : Bytes)
    {q : Nat} (h : image.Holds q (wordFormat.encode q kv)) (hfit : q + wordFormat.size kv < 2 ^ 31) :
    ∃ r, Returns image (matchWord word q) r ∧ Matches image word kv r := by
  obtain ⟨r, hr, hmatches⟩ := matchWord_holds hle kv.value word h hfit
  refine ⟨r, hr, ?_⟩
  cases r with
  | none => exact hmatches
  | some r => exact hmatches

/-- A word is found exactly when an element of the table has it. -/
theorem lookupWord_returns {t : HashTable WordPostings} (ht : TableAt wordFormat image off t)
    (hwords : ∀ kv ∈ t.pairs, kv.value.word.length ≤ 32767)
    (hkeys : ∀ kv ∈ t.pairs, hashString kv.value.word = kv.key) (word : Bytes) :
    ∃ r, Returns image (lookupWord (readerAt off t) word) r ∧
      match r with
      | none => ∀ wp, t.lookup (hashString word) = some wp → wp.word ≠ word
      | some r => ∃ wp, t.lookup (hashString word) = some wp ∧ wp.word = word ∧ ReadsPostings image wp r := by
  obtain ⟨r, hr, hspec⟩ := lookup_returns (R := Matches image word) ht (hashString word)
    fun kv hkv q hq hfit => matchWord_returns (hwords kv (mem_pairs_of_chain hkv)) word hq hfit
  refine ⟨r, hr, ?_⟩
  cases r with
  | none =>
      intro wp hl
      exact hspec _ (HashTable.lookup_eq_some.mp hl)
  | some r =>
      obtain ⟨kv, hkv, hword, hreads⟩ := hspec
      have hpair := mem_pairs_of_chain hkv
      have hl := HashTable.mem_pairs.mp hpair
      rw [← hkeys kv hpair, hword] at hl
      exact ⟨kv.value, hl, hword, hreads⟩

end IndexTableReader

end SearchEngine
