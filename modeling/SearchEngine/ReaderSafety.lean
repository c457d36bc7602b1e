import SearchEngine.RawTables

/-! What the readers do on a file of any content. -/

namespace SearchEngine

open FileProgram Program OpenFile HashTableReader

/-- Every way to fail is a failed check. -/
abbrev Checked {α : Type} (p : FileProgram α) : Prop := Raises handle p fun e => e = .verify333

theorem checked_fseekVerified (offset : Int) : Checked (fseekVerified offset) := by
  apply Raises.bind
  · apply (Raises.perform _).bind
    intro r
    cases r <;> exact .pure _
  · intro ok
    cases ok with
    | false => exact .fail rfl
    | true => exact .pure _

theorem checked_freadVerified (n : Nat) : Checked (freadVerified n) := by
  apply Raises.bind
  · apply (Raises.perform _).bind
    intro r
    cases r <;> exact .pure _
  · intro r
    cases r with
    | none => exact .fail rfl
    | some bytes => exact .pure _

namespace HashTableReader

variable {α : Type}

theorem checked_new (offset : Int) : Checked (new offset) := by
  apply (checked_fseekVerified _).bind
  intro _
  apply (checked_freadVerified _).bind
  intro bs
  exact .pure _

theorem checked_readPositions (n : Nat) : Checked (readPositions n) := by
  induction n with
  | zero => exact .pure _
  | succ n ih =>
      apply (checked_freadVerified _).bind
      intro bs
      apply ih.bind
      intro rest
      exact .pure _

theorem checked_readChars (n : Nat) : Checked (readChars n) := by
  induction n with
  | zero => exact .pure _
  | succ n ih =>
      apply (checked_freadVerified _).bind
      intro nextChar
      apply ih.bind
      intro rest
      exact .pure _

theorem checked_lookupElementPositions {r : HashTableReader} (h : r.numBuckets ≠ 0) (key : UInt64) :
    Checked (r.lookupElementPositions key) := by
  rw [lookupElementPositions, bucketNum, if_neg h]
  apply Raises.bind (.pure _)
  intro bucketNum
  apply (checked_fseekVerified _).bind
  intro _
  apply (checked_freadVerified _).bind
  intro bs
  apply (checked_fseekVerified _).bind
  intro _
  exact checked_readPositions _

theorem checked_firstMatch {matchAt : Int → FileProgram (Option α)} (h : ∀ offset, Checked (matchAt offset))
    (offsets : List Int) : Checked (firstMatch matchAt offsets) := by
  induction offsets with
  | nil => exact .pure _
  | cons offset offsets ih =>
      apply (h offset).bind
      intro r
      cases r with
      | none => exact ih
      | some a => exact .pure _

theorem lookupElementPositions_zero {r : HashTableReader} (h : r.numBuckets = 0) (key : UInt64) (f : OpenFile) :
    (r.lookupElementPositions key).run handle f = .error .divisionByZero := by
  rw [lookupElementPositions, bucketNum, if_pos h]
  rfl

end HashTableReader

theorem DocTableReader.checked_lookupDocID {r : HashTableReader} (h : r.numBuckets ≠ 0) (docId : UInt64) :
    Checked (lookupDocID r docId) := by
  apply (checked_lookupElementPositions h _).bind
  intro elements
  apply checked_firstMatch
  intro offset
  apply (checked_fseekVerified _).bind
  intro _
  apply (checked_freadVerified _).bind
  intro bs
  apply Raises.ite
  · apply (checked_readChars _).bind
    intro name
    exact .pure _
  · exact .pure _

namespace DocIDTableReader

theorem checked_readPositionList (n : Nat) : Checked (readPositionList n) := by
  induction n with
  | zero => exact .pure _
  | succ n ih =>
      apply (checked_freadVerified _).bind
      intro bs
      apply ih.bind
      intro rest
      exact .pure _

theorem checked_lookupDocID {r : HashTableReader} (h : r.numBuckets ≠ 0) (docId : UInt64) :
    Checked (lookupDocID r docId) := by
  apply (checked_lookupElementPositions h _).bind
  intro elements
  apply checked_firstMatch
  intro offset
  apply (checked_fseekVerified _).bind
  intro _
  apply (checked_freadVerified _).bind
  intro bs
  apply Raises.ite
  · apply (checked_readPositionList _).bind
    intro positions
    exact .pure _
  · exact .pure _

theorem checked_bucketDocIDs (position : Int) (n j : Nat) : Checked (bucketDocIDs position n j) := by
  induction n generalizing j with
  | zero => exact .pure _
  | succ n ih =>
      apply (checked_fseekVerified _).bind
      intro _
      apply (checked_freadVerified _).bind
      intro elementPos
      apply (checked_fseekVerified _).bind
      intro _
      apply (checked_freadVerified _).bind
      intro element
      apply (ih _).bind
      intro rest
      exact .pure _

theorem checked_tableDocIDs (offset : Int) (n i : Nat) : Checked (tableDocIDs offset n i) := by
  induction n generalizing i with
  | zero => exact .pure _
  | succ n ih =>
      apply (checked_fseekVerified _).bind
      intro _
      apply (checked_freadVerified _).bind
      intro bucketRec
      apply (checked_bucketDocIDs _ _ _).bind
      intro elements
      apply (ih _).bind
      intro rest
      exact .pure _

/-- GetDocIDList takes no remainder. -/
theorem checked_getDocIDList (r : HashTableReader) : Checked (getDocIDList r) := checked_tableDocIDs _ _ _

end DocIDTableReader

theorem IndexTableReader.checked_lookupWord {r : HashTableReader} (h : r.numBuckets ≠ 0) (word : Bytes) :
    Checked (lookupWord r word) := by
  apply (checked_lookupElementPositions h _).bind
  intro elements
  apply checked_firstMatch
  intro offset
  apply (checked_fseekVerified _).bind
  intro _
  apply (checked_freadVerified _).bind
  intro bs
  apply Raises.ite
  · exact .pure _
  · apply (checked_readChars _).bind
    intro chars
    apply Raises.ite
    · apply (checked_new _).bind
      intro reader
      exact .pure _
    · exact .pure _

/-- On this file, wherever it is positioned, a failed check is the worst. -/
def SafeOn {α : Type} (image : FileImage) (p : FileProgram α) : Prop :=
  ∀ f e, f.image = image → p.run handle f = .error e → e = .verify333

theorem SafeOn.of_checked {α : Type} {p : FileProgram α} (h : Checked p) (image : FileImage) : SafeOn image p :=
  fun f e _ hrun => h.of_run f e hrun

/-- The element at this place is the one that the search for the word ends at. -/
structure IndexTableReader.LeadsTo (image : FileImage) (itr : HashTableReader) (word : Bytes) (p : Int) : Prop where
  spells : Spells image word p
  first : ∃ i pre post, BucketOf image itr (hashString word) i ∧
    chainOf image (recordAt image (itr.recordOffset i)) = pre ++ p :: post ∧ ∀ q ∈ pre, Differs image word q

theorem IndexTableReader.LeadsTo.lookupWord {image : FileImage} {itr : HashTableReader} {word : Bytes} {p : Int}
    (h : LeadsTo image itr word p) (htable : HasTable image (tableAfter word p)) :
    Returns image (lookupWord itr word) (some (tableReader image (tableAfter word p))) := by
  obtain ⟨i, pre, post, hbucket, hchain, hpre⟩ := h.first
  have hps := hbucket.returns
  rw [hchain] at hps
  exact hps.bind (firstMatch_append post (fun q hq => (hpre q hq).matchWord) (h.spells.matchWord htable))

theorem IndexTableReader.leadsTo_of_lookupWord {itr r : HashTableReader} {word : Bytes} {f f' : OpenFile}
    (h : (lookupWord itr word).run handle f = .ok (some r, f')) :
    ∃ p, LeadsTo f.image itr word p ∧ HasTable f.image (tableAfter word p) ∧
      r = tableReader f.image (tableAfter word p) := by
  rw [IndexTableReader.lookupWord, run_bind] at h
  cases hpositions : (itr.lookupElementPositions (hashString word)).run handle f with
  | error e =>
      rw [hpositions] at h
      cases h
  | ok res =>
      obtain ⟨ps, f₁⟩ := res
      obtain ⟨hf₁, i, hbucket, rfl⟩ := bucketOf_of_run hpositions
      rw [hpositions, ok_bind] at h
      have hnone : ∀ q g g', g.image = f.image → (matchWord word q).run handle g = .ok (none, g') →
          g'.image = f.image ∧ Differs f.image word q := by
        intro q g g' hg hrun
        obtain ⟨pos', rfl, _⟩ := run_linked (only_matchWord word q) hrun
        exact ⟨hg, hg ▸ matchWord_none hrun⟩
      have hsome : ∀ q g g' didtr, g.image = f.image → (matchWord word q).run handle g = .ok (some didtr, g') →
          Spells f.image word q ∧ HasTable f.image (tableAfter word q) ∧
            didtr = tableReader f.image (tableAfter word q) := by
        intro q g g' didtr hg hrun
        rw [← hg]
        exact matchWord_some hrun
      obtain ⟨pre, p, post, hchain, hpre, hspells, hhas, hr⟩ := firstMatch_some hnone hsome hf₁ h
      exact ⟨p, ⟨hspells, i, pre, post, hbucket, hchain, hpre⟩, hhas, hr⟩

open IndexTableReader

namespace FileIndexReader

def indexOffset (header : IndexFileHeader) : Int := int32 (IndexFileHeader.sizeof + header.doctableBytes)

/-- None of the lookups on the tables of the file fails but by a failed
check. -/
structure ReadersSafe (image : FileImage) (fir : FileIndexReader) : Prop where
  docs : ∀ dtr f f', f.image = image → fir.newDocTableReader.run handle f = .ok (dtr, f') →
    ∀ docId, SafeOn image (DocTableReader.lookupDocID dtr docId)
  words : ∀ itr f f', f.image = image → fir.newIndexTableReader.run handle f = .ok (itr, f') →
    ∀ word, SafeOn image (lookupWord itr word)
  postings : ∀ itr f f', f.image = image → fir.newIndexTableReader.run handle f = .ok (itr, f') →
    ∀ word didtr g g', g.image = image → (lookupWord itr word).run handle g = .ok (some didtr, g') →
      SafeOn image (DocIDTableReader.getDocIDList didtr) ∧
        ∀ docId, SafeOn image (DocIDTableReader.lookupDocID didtr docId)

/-- The bucket counts in the file by which the lookups divide. -/
structure NoZeroBuckets (image : FileImage) (header : IndexFileHeader) : Prop where
  docs : HasTable image IndexFileHeader.sizeof → (tableReader image IndexFileHeader.sizeof).numBuckets ≠ 0
  index : HasTable image (indexOffset header) → (tableReader image (indexOffset header)).numBuckets ≠ 0
  postings : HasTable image (indexOffset header) → ∀ word p,
    LeadsTo image (tableReader image (indexOffset header)) word p →
    HasTable image (tableAfter word p) → (tableReader image (tableAfter word p)).numBuckets ≠ 0

theorem not_safeOn {α : Type} {image : FileImage} {r : HashTableReader} (h : r.numBuckets = 0) (key : UInt64)
    (k : List Int → FileProgram α) : ¬SafeOn image (r.lookupElementPositions key >>= k) := by
  intro hsafe
  have herror := hsafe ⟨image, 0, true⟩ .divisionByZero rfl
    (by rw [run_bind, lookupElementPositions_zero h, Program.error_bind])
  cases herror

theorem readersSafe_iff (image : FileImage) (fir : FileIndexReader) :
    ReadersSafe image fir ↔ NoZeroBuckets image fir.header := by
  constructor
  · intro h
    constructor
    · intro hhas hzero
      exact not_safeOn hzero 0 _ (h.docs _ ⟨image, 0, true⟩ _ rfl (by rw [newDocTableReader, run_new, if_pos hhas]) 0)
    · intro hhas hzero
      exact not_safeOn hzero _ _
        (h.words _ ⟨image, 0, true⟩ _ rfl (by rw [newIndexTableReader, ← indexOffset, run_new, if_pos hhas]) [])
    · intro hhas word p hleads htable hzero
      obtain ⟨_, hrun⟩ := hleads.lookupWord htable 0 true
      exact not_safeOn hzero 0 _ ((h.postings _ ⟨image, 0, true⟩ _ rfl
        (by rw [newIndexTableReader, ← indexOffset, run_new, if_pos hhas]) word _ ⟨image, 0, true⟩ _ rfl hrun).2 0)
  · intro h
    constructor
    · intro dtr f f' hf hrun docId
      rw [newDocTableReader, run_new, hf] at hrun
      split at hrun
      · next hhas =>
        obtain rfl := (Prod.mk.inj (Except.ok.inj hrun)).1
        exact .of_checked (DocTableReader.checked_lookupDocID (h.docs hhas) docId) image
      · cases hrun
    · intro itr f f' hf hrun word
      rw [newIndexTableReader, ← indexOffset, run_new, hf] at hrun
      split at hrun
      · next hhas =>
        obtain rfl := (Prod.mk.inj (Except.ok.inj hrun)).1
        exact .of_checked (IndexTableReader.checked_lookupWord (h.index hhas) word) image
      · cases hrun
    · intro itr f f' hf hrun word didtr g g' hg hlookup
      rw [newIndexTableReader, ← indexOffset, run_new, hf] at hrun
      split at hrun
      · next hhas =>
        obtain rfl := (Prod.mk.inj (Except.ok.inj hrun)).1
        obtain ⟨p, hleads, htable, rfl⟩ := leadsTo_of_lookupWord hlookup
        rw [hg] at hleads htable ⊢
        exact ⟨.of_checked (DocIDTableReader.checked_getDocIDList _) image, fun docId =>
          .of_checked (DocIDTableReader.checked_lookupDocID (h.postings hhas word p hleads htable) docId) image⟩
      · cases hrun

theorem checkBody_header {image : FileImage} {r : FileIndexReader × OpenFile} (h : checkBody image = .ok r) :
    r.1 = ⟨headerOf image⟩ := by
  obtain ⟨left, _, h⟩ := Run.bind_eq_ok.mp h
  obtain ⟨checksum, _, h⟩ := Run.bind_eq_ok.mp h
  split at h
  · cases h
    rfl
  · cases h

/-- An index file with these two tables. -/
def tablesFile (checksum : UInt32) (docs index : Bytes) : FileImage :=
  FileImage.empty.patch 0
    ((⟨kMagicNumber, checksum, docs.length, index.length⟩ : IndexFileHeader).toDisk ++ (docs ++ index))

theorem new_tablesFile (checksum : UInt32) (docs index : Bytes) (h : (do
      let _ ← checkBody (tablesFile checksum docs index)
      return decide (HeaderFits (tablesFile checksum docs index)) : Run Bool) = .ok true) :
    ∃ file, (new true).run handle ⟨tablesFile checksum docs index, 0, true⟩ =
      .ok (⟨headerOf (tablesFile checksum docs index)⟩, file) := by
  obtain ⟨r, hr, h⟩ := Run.bind_eq_ok.mp h
  refine ⟨r.2, ?_⟩
  rw [new_eq, if_pos (of_decide_eq_true (Except.ok.inj h)), hr, ← checkBody_header hr]

/-- Two tables without buckets pass the constructor. -/
theorem zeroBuckets_unsafe : ∃ image fir file, (new true).run handle ⟨image, 0, true⟩ = .ok (fir, file) ∧
    ¬ReadersSafe image fir := by
  obtain ⟨file, hnew⟩ := new_tablesFile 1696784233 (field32 0) (field32 0) (by decide +kernel)
  refine ⟨_, _, file, hnew, ?_⟩
  intro hsafe
  exact ((readersSafe_iff _ _).mp hsafe).docs (by decide +kernel) (by decide +kernel)

/-- The readers of an accepted file can be trusted not to crash just when no
bucket count that they divide by is zero. -/
theorem accepted_readersSafe {image : FileImage} {pos : Nat} {fir : FileIndexReader} {file : OpenFile}
    (_ : (new true).run handle ⟨image, pos, true⟩ = .ok (fir, file)) :
    ReadersSafe image fir ↔ NoZeroBuckets image fir.header := readersSafe_iff image fir

/-- A table of one empty bucket, for a file that ends at 40. -/
def oneBucket : Bytes := field32 1 ++ (field32 0 ++ field32 40)

def oneBucketFile : FileImage := tablesFile 4155010463 oneBucket oneBucket

theorem bucketNum_one {r : HashTableReader} (h : r.numBuckets = 1) (key : UInt64) : r.bucketNum key = .ok 0 := by
  have hmod : (1 : Int) % 2 ^ 64 = 1 := by decide
  rw [bucketNum, if_neg (by omega), h, hmod, Int.emod_one]
  rfl

theorem oneBucket_chain {key : UInt64} {i : Int} (h : BucketOf oneBucketFile (tableReader oneBucketFile 28) key i) :
    chainOf oneBucketFile (recordAt oneBucketFile ((tableReader oneBucketFile 28).recordOffset i)) = [] := by
  obtain rfl : 0 = i := Except.ok.inj ((bucketNum_one (by decide +kernel) key).symm.trans h.num)
  decide +kernel

theorem accepted_readersSafe_small : ∃ fir file, (new true).run handle ⟨oneBucketFile, 0, true⟩ = .ok (fir, file) ∧
    ReadersSafe oneBucketFile fir := by
  obtain ⟨file, hnew⟩ := new_tablesFile 4155010463 oneBucket oneBucket (by decide +kernel)
  rw [← oneBucketFile] at hnew
  have hoffset : indexOffset (headerOf oneBucketFile) = 28 := by decide +kernel
  refine ⟨_, file, hnew, (accepted_readersSafe hnew).mpr ⟨?_, ?_, ?_⟩⟩
  · intro _
    decide +kernel
  · intro _
    decide +kernel
  · intro _ word p hleads
    rw [hoffset] at hleads
    obtain ⟨i, pre, post, hbucket, hchain, _⟩ := hleads.first
    rw [oneBucket_chain hbucket] at hchain
    simp at hchain

end FileIndexReader

end SearchEngine
