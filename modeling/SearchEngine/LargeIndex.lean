import SearchEngine.CrashAtomicity
import SearchEngine.CutLengths

/-! What WriteIndex leaves of tables that are too large for its 32-bit
offsets. -/

namespace SearchEngine

open FileProgram Layout Program OpenFile

/-- The file is longer than any unsigned 32-bit number. -/
def OpenFile.Huge (f : OpenFile) : Prop := 2 ^ 32 ≤ f.image.length

theorem FileImage.length_le_patch (image : FileImage) (off : Nat) (bytes : Bytes) :
    image.length ≤ (image.patch off bytes).length := by
  rw [patch]
  dsimp only
  split
  · exact Nat.le_refl _
  · exact Nat.le_max_left ..

namespace FileProgram

variable {α : Type} {f f' : OpenFile} {a stop : α} {p : FileProgram α}

theorem length_le_of_run (hp : Only (· ≠ FileOp.create) p) (h : p.run handle f = .ok (a, f')) :
    f.image.length ≤ f'.image.length := by
  induction hp generalizing f with
  | done b =>
      obtain rfl := (Prod.mk.inj (Except.ok.inj h)).2
      exact Nat.le_refl _
  | fail e => cases h
  | @call op next hop _ ih =>
      have hrest := ih _ h
      have hstep : f.image.length ≤ (handle op f).2.image.length := by
        cases op with
        | create => exact absurd rfl hop
        | openRead | seek offset | read n =>
            simp only [handle]
            split <;> exact Nat.le_refl _
        | write bytes => exact f.image.length_le_patch f.pos bytes
        | sync | size | close | unlink => exact Nat.le_refl _
      exact Nat.le_trans hstep hrest

theorem Blind.huge_of_run (hp : Blind p) (h : p.run handle f = .ok (a, f')) (hf : f.Huge) : f'.Huge := by
  have hle := length_le_of_run (hp.mono fun op hop => by rintro rfl; exact hop.elim) h
  exact Nat.le_trans hf hle

/-- What follows an fseek whose failure is reported. -/
theorem sought_of_run {offset : Int}
    (h : (fseek offset >>= fun sought => if !sought then pure stop else p).run handle f = .ok (a, f'))
    (hne : a ≠ stop) : 0 ≤ offset ∧ p.run handle { f with pos := offset.toNat } = .ok (a, f') := by
  rw [run_bind, run_fseek, ok_bind] at h
  by_cases hoff : 0 ≤ offset
  · simp only [hoff, decide_true, Bool.not_true, Bool.false_eq_true, if_false, if_true] at h
    exact ⟨hoff, h⟩
  · simp only [hoff, decide_false, Bool.not_false, if_true] at h
    exact absurd (Prod.mk.inj (Except.ok.inj h)).1.symm hne

theorem wrote_of_run {bytes : Bytes}
    (h : (fwrite bytes >>= fun wrote => if !wrote then pure stop else p).run handle f = .ok (a, f')) :
    p.run handle { f with image := f.image.patch f.pos bytes, pos := f.pos + bytes.length } = .ok (a, f') := h

end FileProgram

namespace WriteIndex

variable {V : Type} {F : ElementFormat V} {fn : WriteElementFn V} {f f' : OpenFile}

/-- The number of bytes that the function returns is the size of the element,
unless the file has become huge. -/
def Counts (fn : WriteElementFn V) (F : ElementFormat V) (kv : HTKeyValue V) : Prop :=
  ∀ (off n : Int) (f f' : OpenFile), (fn off kv).run handle f = .ok (n, f') → 0 ≤ n →
    f'.Huge ∨ (0 ≤ off ∧ n = F.size kv)

/-- An offset that has wrapped around is negative, and the fseek there fails. -/
theorem writeElements_counts (hblind : ∀ offset kv, Blind (fn offset kv)) {kvs : List (HTKeyValue V)}
    (hfn : ∀ kv ∈ kvs, Counts fn F kv) (hne : kvs ≠ []) {rp p q : Int} (hrp : rp < 2 ^ 31)
    (h : (writeElements fn kvs rp p).run handle f = .ok (some q, f')) :
    f'.Huge ∨ (0 ≤ rp ∧ rp + 4 * kvs.length < 2 ^ 31 + 4 ∧ 0 ≤ p ∧ q = p + total F.size kvs ∧ q < 2 ^ 31) := by
  induction kvs generalizing rp p f with
  | nil => exact absurd rfl hne
  | cons kv kvs ih =>
      obtain ⟨hseek, h⟩ := sought_of_run h (by simp)
      have h := wrote_of_run h
      obtain ⟨n, f₁, helem, h⟩ := (run_bind_eq_ok handle).mp h
      by_cases hneg : n < 0
      · rw [if_pos hneg] at h
        cases h
      · rw [if_neg hneg] at h
        obtain ⟨p', f₂, hadd, h⟩ := (run_bind_eq_ok handle).mp h
        obtain ⟨rfl, _, hmax, rfl⟩ := addInt_of_run hadd
        rcases hfn kv (by simp) p n _ f₁ helem (Int.not_lt.mp hneg) with hhuge | ⟨hp, rfl⟩
        · exact .inl ((blind_writeElements hblind _ _ _).huge_of_run h hhuge)
        · cases kvs with
          | nil =>
              obtain ⟨hq, _⟩ := Prod.mk.inj (Except.ok.inj h)
              obtain rfl := Option.some.inj hq
              exact .inr ⟨hseek, by simp; omega, hp, by simp, by omega⟩
          | cons kv' kvs =>
              rcases ih (fun kv hkv => hfn kv (by simp [hkv])) (by simp) (int32_lt _) h with
                hhuge | ⟨hnext, hroom, _, hq, hlt⟩
              · exact .inl hhuge
              · rw [ElementPositionRecord.sizeof] at hnext hroom
                obtain ⟨_, heq⟩ := lt_of_int32_nonneg (by omega) (by omega) hnext
                rw [heq] at hroom
                refine .inr ⟨hseek, ?_, hp, ?_, hlt⟩
                · simp only [List.length_cons] at hroom ⊢
                  omega
                · have htotal : total F.size (kv :: kv' :: kvs) = F.size kv + total F.size (kv' :: kvs) := rfl
                  omega

theorem writeHTBucket_counts (hblind : ∀ offset kv, Blind (fn offset kv)) {li : LinkedList (HTKeyValue V)}
    (hfn : ∀ kv ∈ li.payloads, Counts fn F kv) {off n : Int} (hoff : off < 2 ^ 31)
    (h : (writeHTBucket fn off li).run handle f = .ok (n, f')) (hn : n ≠ kFailedWrite) :
    f'.Huge ∨ (n = F.bucketSize li ∧ off + n < 2 ^ 31) := by
  by_cases hempty : li.numElements = 0
  · rw [writeHTBucket, if_pos hempty] at h
    obtain ⟨rfl, _⟩ := Prod.mk.inj (Except.ok.inj h)
    exact .inr ⟨by rw [F.bucketSize_empty hempty]; rfl, by omega⟩
  · rw [writeHTBucket, if_neg hempty] at h
    have hlen := li.length_payloads
    have hne : li.payloads ≠ [] := by
      rw [← List.length_pos_iff]
      omega
    obtain ⟨elementPos, f₁, hloop, h⟩ := (run_bind_eq_ok handle).mp h
    cases elementPos with
    | none => exact absurd (Prod.mk.inj (Except.ok.inj h)).1.symm hn
    | some elementPos =>
        obtain ⟨rfl, _, _, rfl⟩ := addInt_of_run h
        rcases writeElements_counts hblind hfn hne hoff hloop with hhuge | ⟨hnonneg, hroom, hpos, rfl, hlt⟩
        · exact .inl hhuge
        · rw [ElementPositionRecord.sizeof] at hpos hlt ⊢
          obtain ⟨_, heq⟩ := lt_of_int32_nonneg (by omega) (by omega) hpos
          rw [heq] at hlt ⊢
          have hsize : F.bucketSize li = 4 * li.numElements + total F.size li.payloads := rfl
          exact .inr ⟨by omega, by omega⟩

theorem writeBuckets_counts (hblind : ∀ offset kv, Blind (fn offset kv)) {lis : List (LinkedList (HTKeyValue V))}
    (hfn : ∀ li ∈ lis, ∀ kv ∈ li.payloads, Counts fn F kv) {rp p q : Int} (hrp : rp < 2 ^ 31) (hp : p < 2 ^ 31)
    (h : (writeBuckets fn lis rp p).run handle f = .ok (some q, f')) :
    f'.Huge ∨ ((lis ≠ [] → 0 ≤ rp) ∧ rp + 8 * lis.length < 2 ^ 31 ∧ q = p + total F.bucketSize lis ∧ q < 2 ^ 31) := by
  induction lis generalizing rp p f with
  | nil =>
      obtain ⟨hq, _⟩ := Prod.mk.inj (Except.ok.inj h)
      obtain rfl := Option.some.inj hq
      exact .inr ⟨by simp, by simpa using hrp, by simp, hp⟩
  | cons li lis ih =>
      have hfn' := fun li' hli' => hfn li' (List.mem_cons_of_mem li hli')
      obtain ⟨recordBytes, f₁, hrecord, h⟩ := (run_bind_eq_ok handle).mp h
      by_cases hfailed : recordBytes = kFailedWrite
      · rw [if_pos hfailed] at h
        cases h
      · rw [if_neg hfailed] at h
        obtain ⟨hseek, hrecord⟩ := sought_of_run hrecord hfailed
        obtain ⟨rfl, _⟩ := Prod.mk.inj (Except.ok.inj (wrote_of_run hrecord))
        obtain ⟨rp', f₂, hadd, h⟩ := (run_bind_eq_ok handle).mp h
        obtain ⟨rfl, _, hmax, rfl⟩ := addInt_of_run hadd
        rw [BucketRecord.sizeof] at hmax h
        by_cases hempty : li.numElements = 0
        · rw [if_pos hempty] at h
          rcases ih hfn' (by omega) hp h with hhuge | ⟨_, hroom, hq, hlt⟩
          · exact .inl hhuge
          · rw [List.length_cons, total_cons, F.bucketSize_empty hempty]
            exact .inr ⟨fun _ => hseek, by omega, by omega, hlt⟩
        · rw [if_neg hempty] at h
          obtain ⟨bucketBytes, f₃, hbucket, h⟩ := (run_bind_eq_ok handle).mp h
          by_cases hfailed' : bucketBytes = kFailedWrite
          · rw [if_pos hfailed'] at h
            cases h
          · rw [if_neg hfailed'] at h
            obtain ⟨p', f₄, hadd', h⟩ := (run_bind_eq_ok handle).mp h
            obtain ⟨rfl, _, hmax', rfl⟩ := addInt_of_run hadd'
            rcases writeHTBucket_counts hblind (hfn li (by simp)) hp hbucket hfailed' with hhuge | ⟨rfl, _⟩
            · exact .inl ((blind_writeBuckets hblind _ _ _).huge_of_run h hhuge)
            · rcases ih hfn' (by omega) (by omega) h with hhuge | ⟨_, hroom, hq, hlt⟩
              · exact .inl hhuge
              · rw [List.length_cons, total_cons]
                exact .inr ⟨fun _ => hseek, by omega, by omega, hlt⟩

theorem writeHashTable_counts (hblind : ∀ offset kv, Blind (fn offset kv)) {t : HashTable V}
    (hfn : ∀ kv ∈ t.pairs, Counts fn F kv) {off n : Int} (hoff : off < 2 ^ 31)
    (h : (writeHashTable fn off t).run handle f = .ok (n, f')) (hn : n ≠ kFailedWrite) :
    f'.Huge ∨ (0 ≤ off ∧ n = F.tableSize t ∧ off + n < 2 ^ 31) := by
  obtain ⟨hseek, h⟩ := sought_of_run h hn
  have h := wrote_of_run h
  obtain ⟨bucketPos, f₁, hloop, h⟩ := (run_bind_eq_ok handle).mp h
  cases bucketPos with
  | none => exact absurd (Prod.mk.inj (Except.ok.inj h)).1.symm hn
  | some bucketPos =>
      obtain ⟨rfl, _, _, rfl⟩ := addInt_of_run h
      have hbuckets : t.buckets ≠ [] := by
        rw [← List.length_pos_iff, t.size]
        exact t.pos
      have hfn' : ∀ li ∈ t.buckets, ∀ kv ∈ li.payloads, Counts fn F kv :=
        fun li hli kv hkv => hfn kv (List.mem_flatMap.mpr ⟨li, hli, hkv⟩)
      rcases writeBuckets_counts hblind hfn' (int32_lt _) (int32_lt _) hloop with
        hhuge | ⟨hnonneg, hroom, rfl, hlt⟩
      · exact .inl hhuge
      · have hsize := F.tableSize_buckets t
        have hrecords := hnonneg hbuckets
        rw [BucketListHeader.sizeof] at hrecords hroom hlt ⊢
        rw [BucketRecord.sizeof] at hlt ⊢
        obtain ⟨_, heq⟩ := lt_of_int32_nonneg (by omega) (by omega) hrecords
        rw [heq, t.size] at hroom
        rw [int32_of_lt (by omega) (by omega)] at hlt ⊢
        exact .inr ⟨hseek, by omega, by omega⟩

theorem docname_counts (kv : HTKeyValue Bytes) : Counts writeDocidToDocnameFn cutDocFormat kv := by
  intro off n f f' h hn
  have hne : n ≠ kFailedWrite := by
    rw [kFailedWrite]
    omega
  obtain ⟨hseek, h⟩ := sought_of_run h hne
  have h := wrote_of_run h
  have hsize : cutDocFormat.size kv = 10 + (int16 kv.value.length).toNat := rfl
  have hlt := int16_lt kv.value.length
  rw [hsize]
  generalize int16 kv.value.length = fileNameBytes at h hlt ⊢
  obtain ⟨wrote, f₁, hitem, h⟩ := (run_bind_eq_ok handle).mp h
  have hnonneg : 0 ≤ fileNameBytes := by
    by_contra hneg
    rw [fwriteItem, if_pos (Int.not_le.mp hneg)] at hitem
    cases hitem
  cases wrote with
  | false => exact absurd (Prod.mk.inj (Except.ok.inj h)).1.symm hne
  | true =>
      obtain ⟨rfl, _⟩ := Prod.mk.inj (Except.ok.inj h)
      rw [DoctableElementHeader.sizeof, int32_of_lt (by omega) (by omega)]
      exact .inr ⟨hseek, by omega⟩

/-- A list of 2^30 - 3 positions or more takes more bytes than the narrowed
number says, and they are written all the same. -/
theorem posting_counts (kv : HTKeyValue Postings) : Counts writeDocIDToPositionListFn postingFormat kv := by
  intro off n f f' h hn
  have hne : n ≠ kFailedWrite := by
    rw [kFailedWrite]
    omega
  obtain ⟨hseek, h⟩ := sought_of_run h hne
  have h := wrote_of_run h
  obtain ⟨wrote, f₁, hpositions, h⟩ := (run_bind_eq_ok handle).mp h
  rw [writePositions_run] at hpositions
  obtain ⟨rfl, rfl⟩ := Prod.mk.inj (Except.ok.inj hpositions)
  obtain ⟨rfl, rfl⟩ := Prod.mk.inj (Except.ok.inj h)
  have hsize : postingFormat.size kv = 12 + 4 * kv.value.numElements := rfl
  rw [DocIDElementHeader.sizeof, DocIDElementPosition.sizeof] at hn ⊢
  by_cases hlarge : 12 + 4 * kv.value.numElements < 2 ^ 32
  · obtain ⟨_, heq⟩ := lt_of_int32_nonneg (by omega) (by omega) hn
    exact .inr ⟨hseek, by omega⟩
  · left
    have hbytes := length_positionsBytes kv.value.payloads
    rw [LinkedList.length_payloads] at hbytes
    have hne : positionsBytes kv.value.payloads ≠ [] := by
      rw [← List.length_pos_iff]
      omega
    simp only [Huge, FileImage.patch, hne, if_false, DocIDElementHeader.length_toDisk, hbytes]
    omega

theorem word_counts (kv : HTKeyValue WordPostings) : Counts writeWordToPostingsFn cutWordFormat kv := by
  intro off n f f' h hn
  have hne : n ≠ kFailedWrite := by
    rw [kFailedWrite]
    omega
  have hsize : cutWordFormat.size kv =
      6 + (int16 kv.value.word.length).toNat + postingFormat.tableSize kv.value.postings := rfl
  have hlt := int16_lt kv.value.word.length
  rw [hsize]
  simp only [writeWordToPostingsFn] at h
  generalize int16 kv.value.word.length = wordBytes at h hlt ⊢
  obtain ⟨htBytes, f₁, htable, h⟩ := (run_bind_eq_ok handle).mp h
  by_cases hfailed : htBytes = kFailedWrite
  · rw [if_pos hfailed] at h
    exact absurd (Prod.mk.inj (Except.ok.inj h)).1.symm hne
  · rw [if_neg hfailed] at h
    obtain ⟨hseek, h⟩ := sought_of_run h hne
    have h := wrote_of_run h
    obtain ⟨_, h⟩ := sought_of_run h hne
    obtain ⟨wrote, f₂, hchars, h⟩ := (run_bind_eq_ok handle).mp h
    have hnonneg : 0 ≤ wordBytes := by
      by_contra hneg
      rw [fwriteChars, if_pos (Int.not_le.mp hneg)] at hchars
      cases hchars
    cases wrote with
    | false => exact absurd (Prod.mk.inj (Except.ok.inj h)).1.symm hne
    | true =>
        obtain ⟨rfl, rfl⟩ := Prod.mk.inj (Except.ok.inj h)
        rcases writeHashTable_counts blind_writeDocIDToPositionListFn (fun kv _ => posting_counts kv) (int32_lt _)
          htable hfailed with hhuge | ⟨hpos, rfl, hroom⟩
        · left
          apply (blind_fwriteChars _ _).huge_of_run hchars
          exact Nat.le_trans hhuge (f₁.image.length_le_patch _ _)
        · rw [WordPostingsHeader.sizeof] at hn ⊢
          obtain ⟨_, heq⟩ := lt_of_int32_nonneg (by omega) (by omega) hn
          exact .inr ⟨hseek, by omega⟩

theorem only_writeHeader (doctableBytes memidxBytes : Int) :
    Only (· ≠ FileOp.create) (writeHeader doctableBytes memidxBytes) := by
  have hseek (offset : Int) : Only (· ≠ FileOp.create) (fseek offset) := only_fseek (by simp)
  apply (hseek _).bind
  intro sought
  apply Only.ite (.pure _)
  apply (only_addInt _ _).bind
  intro tableBytes
  apply ((inspects_readIntoCRC _ _).mono fun op hop => by rintro rfl; exact hop.elim).bind
  intro crc
  cases crc with
  | none => exact .pure _
  | some crc =>
      apply (hseek _).bind
      intro sought
      apply Only.ite (.pure _)
      apply (hseek _).bind
      intro sought
      apply Only.ite (.pure _)
      apply (only_fwrite (by simp)).bind
      intro written
      apply Only.ite (.pure _)
      have hsync : Only (· ≠ FileOp.create) (succeeds .sync) := .call (by simp) fun r => by cases r <;> exact .done _
      apply hsync.bind
      intro synced
      exact (only_ofRun _).bind fun _ => .pure _

/-- A file that WriteIndex does not give up is no larger than its offsets can
say, or far larger. -/
theorem writeIndex_counts {mi : MemIndex} {dt : DocTable} {size : Int}
    (h : (writeIndex mi dt).run handle f = .ok (size, f')) (hsize : 0 ≤ size) :
    f'.Huge ∨ cutSize mi dt < 2 ^ 31 := by
  have hne : size ≠ kFailedWrite := by
    rw [kFailedWrite]
    omega
  have habandon {g : OpenFile} (hrun : (abandon >>= pure).run handle g = .ok (size, f')) : False :=
    hne (Prod.mk.inj (Except.ok.inj hrun)).1.symm
  obtain ⟨created, f₀, hcreate, h⟩ := (run_bind_eq_ok handle).mp h
  obtain ⟨rfl, rfl⟩ := Prod.mk.inj (Except.ok.inj hcreate)
  simp only [Bool.not_true, Bool.false_eq_true, if_false] at h
  obtain ⟨dtBytes, f₁, hdocs, h⟩ := (run_bind_eq_ok handle).mp h
  by_cases hdocsFailed : dtBytes = kFailedWrite
  · rw [if_pos hdocsFailed] at h
    exact (habandon h).elim
  rw [if_neg hdocsFailed] at h
  obtain ⟨curPos, f₂, hadd, h⟩ := (run_bind_eq_ok handle).mp h
  obtain ⟨rfl, _, hmax, rfl⟩ := addInt_of_run hadd
  obtain ⟨miBytes, f₃, hwords, h⟩ := (run_bind_eq_ok handle).mp h
  by_cases hwordsFailed : miBytes = kFailedWrite
  · rw [if_pos hwordsFailed] at h
    exact (habandon h).elim
  rw [if_neg hwordsFailed] at h
  obtain ⟨curPos, f₄, hadd', h⟩ := (run_bind_eq_ok handle).mp h
  obtain ⟨rfl, _, hmax', rfl⟩ := addInt_of_run hadd'
  obtain ⟨headerBytes, f₅, hheader, h⟩ := (run_bind_eq_ok handle).mp h
  by_cases hheaderFailed : headerBytes = kFailedWrite
  · rw [if_pos hheaderFailed] at h
    exact (habandon h).elim
  rw [if_neg hheaderFailed] at h
  obtain ⟨_, rfl⟩ := Prod.mk.inj (Except.ok.inj h)
  have hgrows := length_le_of_run (only_writeHeader _ _) hheader
  rcases writeHashTable_counts blind_writeDocidToDocnameFn (fun kv _ => docname_counts kv) (by decide) hdocs
    hdocsFailed with hhuge | ⟨_, rfl, _⟩
  · have hhuge' := (blind_writeHashTable blind_writeWordToPostingsFn _ _).huge_of_run hwords hhuge
    exact .inl (Nat.le_trans hhuge' hgrows)
  · rcases writeHashTable_counts blind_writeWordToPostingsFn (fun kv _ => word_counts kv) (by omega) hwords
      hwordsFailed with hhuge | ⟨_, rfl, _⟩
    · exact .inl (Nat.le_trans hhuge hgrows)
    · have htotal : cutSize mi dt = 16 + cutDocFormat.tableSize dt.idToName + cutWordFormat.tableSize mi := rfl
      rw [IndexFileHeader.sizeof] at hmax'
      exact .inr (by omega)

end WriteIndex

namespace FileIndexReader

/-- The size in the header is a 32-bit number. -/
theorem openTables_huge (validate : Bool) {f : OpenFile} (hf : f.Huge) :
    (openTables validate).run handle f = .error .verify333 := by
  have hnew : (new validate).run handle f = .error .verify333 := by
    cases hlinked : f.linked with
    | false =>
        have hopen : (succeeds .openRead).run handle f = .ok (false, f) := by
          simp [FileProgram.succeeds, handle, hlinked]
        simp only [new, run_bind, hopen, ok_bind, run_verify333_false, Program.error_bind]
    | true =>
        have hopen : (succeeds .openRead).run handle f = .ok (true, { f with pos := 0 }) := by
          simp [FileProgram.succeeds, handle, hlinked]
        have hroom : 0 + 16 ≤ f.image.length := Nat.le_trans (by decide) hf
        have hread : (freadVerified 16).run handle { f with pos := 0 } =
            .ok (f.image.slice 0 16, { f with pos := 0 + 16 }) := run_freadVerified_slice (by decide) hroom
        have hstat (g : OpenFile) : fileSize.run handle g = .ok (g.image.length, g) := rfl
        simp only [new, run_bind, hopen, ok_bind, run_verify333, IndexFileHeader.sizeof, hread]
        generalize IndexFileHeader.ofDisk (f.image.slice 0 16) = header
        have hsize : ¬(f.image.length : Int) =
            (((16 : Nat) : Int) + header.doctableBytes + header.indexBytes) % 2 ^ 32 := by
          have hle : (2 ^ 32 : Nat) ≤ f.image.length := hf
          omega
        by_cases hmagic : header.magicNumber = kMagicNumber
        · simp only [hmagic, decide_true, run_verify333, ok_bind, hstat, hsize, decide_false, run_verify333_false,
            Program.error_bind]
        · simp only [hmagic, decide_false, run_verify333_false, Program.error_bind]
  rw [openTables, run_bind, hnew]
  rfl

end FileIndexReader

end SearchEngine
