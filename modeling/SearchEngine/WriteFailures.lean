import SearchEngine.BufferedStdio

/-! What WriteIndex does when the disk fails. -/

namespace SearchEngine

open FileProgram Program BufferedFile

namespace WriteIndex

variable {V α : Type} {fn : WriteElementFn V}

/-- After a failed seek or read the program only does this. -/
abbrev Aborts (stop p : FileProgram α) : Prop := AbortsTo Inspects .failed stop p

theorem aborts_fseek (offset : Int) : Aborts (pure false) (fseek offset) :=
  .call (fun _ => rfl) fun r => by cases r <;> exact .done _

theorem aborts_fread (n : Nat) : Aborts (pure none) (fread n) :=
  .call (fun _ => rfl) fun r => by cases r <;> exact .done _

theorem aborts_ofRun (stop : FileProgram α) (x : Run α) : Aborts stop (ofRun x) := by
  cases x with
  | ok a => exact .done a
  | error e => exact .fail e

theorem silent_fwrite (bytes : Bytes) : Only (fun op => ¬Inspects op) (fwrite bytes) := only_fwrite not_false

theorem silent_fwriteItem (buf : Bytes) (size : Int) : Only (fun op => ¬Inspects op) (fwriteItem buf size) :=
  .ite (.fail _) (.ite (.pure _) (silent_fwrite _))

theorem silent_fwriteChars (buf : Bytes) (count : Int) : Only (fun op => ¬Inspects op) (fwriteChars buf count) :=
  .ite (.fail _) (.ite (.pure _) (silent_fwrite _))

theorem silent_writePositions (positions : List UInt64) : Only (fun op => ¬Inspects op) (writePositions positions) := by
  induction positions with
  | nil => exact .pure _
  | cons position positions ih =>
      apply (silent_fwrite _).bind
      intro written
      exact .ite (.pure _) ih

theorem silent_succeeds (op : FileOp) (h : ¬Inspects op) : Only (fun op => ¬Inspects op) (succeeds op) :=
  .call h fun r => by cases r <;> exact .done _

theorem aborts_writeHTBucketRecord (offset numElts bucketOffset : Int) :
    Aborts (pure kFailedWrite) (writeHTBucketRecord offset numElts bucketOffset) := by
  apply (aborts_fseek _).bind (if_pos rfl)
  intro sought
  apply AbortsTo.ite (.pure _)
  apply AbortsTo.skip (silent_fwrite _)
  intro written
  exact .ite (.pure _) (.pure _)

theorem aborts_writeElements (hfn : ∀ offset kv, Aborts (pure kFailedWrite) (fn offset kv))
    (kvs : List (HTKeyValue V)) (recordPos elementPos : Int) :
    Aborts (pure none) (writeElements fn kvs recordPos elementPos) := by
  induction kvs generalizing recordPos elementPos with
  | nil => exact .pure _
  | cons kv kvs ih =>
      apply (aborts_fseek _).bind (if_pos rfl)
      intro sought
      apply AbortsTo.ite (.pure _)
      apply AbortsTo.skip (silent_fwrite _)
      intro written
      apply AbortsTo.ite (.pure _)
      apply (hfn elementPos kv).bind (if_pos (by decide))
      intro elementBytes
      apply AbortsTo.ite (.pure _)
      apply AbortsTo.skip (only_addInt _ _)
      intro elementPos
      exact ih _ _

theorem aborts_writeHTBucket (hfn : ∀ offset kv, Aborts (pure kFailedWrite) (fn offset kv)) (offset : Int)
    (li : LinkedList (HTKeyValue V)) : Aborts (pure kFailedWrite) (writeHTBucket fn offset li) := by
  apply AbortsTo.ite (.pure _)
  apply (aborts_writeElements hfn _ _ _).bind (by rfl)
  intro elementPos
  cases elementPos with
  | none => exact .pure _
  | some elementPos => exact aborts_ofRun _ _

theorem aborts_writeBuckets (hfn : ∀ offset kv, Aborts (pure kFailedWrite) (fn offset kv))
    (lis : List (LinkedList (HTKeyValue V))) (recordPos bucketPos : Int) :
    Aborts (pure none) (writeBuckets fn lis recordPos bucketPos) := by
  induction lis generalizing recordPos bucketPos with
  | nil => exact .pure _
  | cons li lis ih =>
      apply (aborts_writeHTBucketRecord _ _ _).bind (if_pos rfl)
      intro recordBytes
      apply AbortsTo.ite (.pure _)
      apply AbortsTo.skip (only_addInt _ _)
      intro recordPos
      apply AbortsTo.ite (ih _ _)
      apply (aborts_writeHTBucket hfn _ _).bind (if_pos rfl)
      intro bucketBytes
      apply AbortsTo.ite (.pure _)
      apply AbortsTo.skip (only_addInt _ _)
      intro bucketPos
      exact ih _ _

theorem aborts_writeHashTable (hfn : ∀ offset kv, Aborts (pure kFailedWrite) (fn offset kv)) (offset : Int)
    (ht : HashTable V) : Aborts (pure kFailedWrite) (writeHashTable fn offset ht) := by
  apply (aborts_fseek _).bind (if_pos rfl)
  intro sought
  apply AbortsTo.ite (.pure _)
  apply AbortsTo.skip (silent_fwrite _)
  intro written
  apply AbortsTo.ite (.pure _)
  apply (aborts_writeBuckets hfn _ _ _).bind (by rfl)
  intro bucketPos
  cases bucketPos with
  | none => exact .pure _
  | some bucketPos => exact aborts_ofRun _ _

theorem aborts_writeDocidToDocnameFn (offset : Int) (kv : HTKeyValue Bytes) :
    Aborts (pure kFailedWrite) (writeDocidToDocnameFn offset kv) := by
  apply (aborts_fseek _).bind (if_pos rfl)
  intro sought
  apply AbortsTo.ite (.pure _)
  apply AbortsTo.skip (silent_fwrite _)
  intro written
  apply AbortsTo.ite (.pure _)
  apply AbortsTo.skip (silent_fwriteItem _ _)
  intro named
  exact .ite (.pure _) (.pure _)

theorem aborts_writeDocIDToPositionListFn (offset : Int) (kv : HTKeyValue Postings) :
    Aborts (pure kFailedWrite) (writeDocIDToPositionListFn offset kv) := by
  apply (aborts_fseek _).bind (if_pos rfl)
  intro sought
  apply AbortsTo.ite (.pure _)
  apply AbortsTo.skip (silent_fwrite _)
  intro written
  apply AbortsTo.ite (.pure _)
  apply AbortsTo.skip (silent_writePositions _)
  intro listed
  exact .ite (.pure _) (.pure _)

theorem aborts_writeWordToPostingsFn (offset : Int) (kv : HTKeyValue WordPostings) :
    Aborts (pure kFailedWrite) (writeWordToPostingsFn offset kv) := by
  apply (aborts_writeHashTable aborts_writeDocIDToPositionListFn _ _).bind (if_pos rfl)
  intro htBytes
  apply AbortsTo.ite (.pure _)
  apply (aborts_fseek _).bind (if_pos rfl)
  intro sought
  apply AbortsTo.ite (.pure _)
  apply AbortsTo.skip (silent_fwrite _)
  intro written
  apply AbortsTo.ite (.pure _)
  apply (aborts_fseek _).bind (if_pos rfl)
  intro sought
  apply AbortsTo.ite (.pure _)
  apply AbortsTo.skip (silent_fwriteChars _ _)
  intro spelled
  exact .ite (.pure _) (.pure _)

theorem aborts_readIntoCRC (n : Nat) (crc : CRC32) : Aborts (pure none) (readIntoCRC n crc) := by
  induction n generalizing crc with
  | zero => exact .pure _
  | succ n ih =>
      apply (aborts_fread 1).bind (by rfl)
      intro bytes
      cases bytes with
      | none => exact .pure _
      | some bytes =>
          apply AbortsTo.skip (only_ofRun _)
          intro crc
          exact ih crc

theorem aborts_writeHeader (doctableBytes memidxBytes : Int) :
    Aborts (pure kFailedWrite) (writeHeader doctableBytes memidxBytes) := by
  apply (aborts_fseek _).bind (if_pos rfl)
  intro sought
  apply AbortsTo.ite (.pure _)
  apply AbortsTo.skip (only_addInt _ _)
  intro tableBytes
  apply (aborts_readIntoCRC _ _).bind (by rfl)
  intro crc
  cases crc with
  | none => exact .pure _
  | some crc =>
      apply (aborts_fseek _).bind (if_pos rfl)
      intro sought
      apply AbortsTo.ite (.pure _)
      apply (aborts_fseek _).bind (if_pos rfl)
      intro sought
      apply AbortsTo.ite (.pure _)
      apply AbortsTo.skip (silent_fwrite _)
      intro written
      apply AbortsTo.ite (.pure _)
      apply AbortsTo.skip (silent_succeeds .sync not_false)
      intro synced
      apply AbortsTo.skip (only_ofRun _)
      intro _
      exact .pure _

/-- Every failure before fclose leads to the one way out. -/
theorem aborts_writeIndex (mi : MemIndex) (dt : DocTable) : Aborts abandon (writeIndex mi dt) := by
  have hout : Aborts abandon abandon := by
    apply AbortsTo.skip (silent_succeeds .close not_false)
    intro _
    apply AbortsTo.skip (silent_succeeds .unlink not_false)
    intro _
    exact .pure _
  apply AbortsTo.skip (silent_succeeds .create not_false)
  intro created
  apply AbortsTo.ite (.pure _)
  apply (aborts_writeHashTable aborts_writeDocidToDocnameFn _ _).bind (if_pos rfl)
  intro dtBytes
  apply AbortsTo.ite hout
  apply AbortsTo.skip (only_addInt _ _)
  intro curPos
  apply (aborts_writeHashTable aborts_writeWordToPostingsFn _ _).bind (if_pos rfl)
  intro miBytes
  apply AbortsTo.ite hout
  apply AbortsTo.skip (only_addInt _ _)
  intro curPos
  apply (aborts_writeHeader _ _).bind (if_pos rfl)
  intro headerBytes
  apply AbortsTo.ite hout
  apply AbortsTo.skip (silent_succeeds .close not_false)
  intro _
  exact .pure _

theorem blind_streams {p : FileProgram α} (h : Blind p) : Only Streams p := by
  apply h.mono
  intro op hop
  rcases hop.cases with ⟨offset, rfl⟩ | ⟨bytes, rfl⟩ <;> trivial

theorem inspects_streams {p : FileProgram α} (h : Only Inspects p) : Only Streams p := by
  apply h.mono
  intro op hop
  cases op with
  | seek offset => trivial
  | read n => trivial
  | create | openRead | write | sync | size | close | unlink => exact hop.elim

section

variable {d : DiskFailures} {f : BufferedFile} {g g' : OpenFile} {a : α}

theorem run_shows {p : FileProgram α} (hp : Only Streams p) (h : Shows f g)
    (hrun : p.run OpenFile.handle g = .ok (a, g')) : ∃ f', p.run (handle d.quiet) f = .ok (a, f') ∧ Shows f' g' := by
  have hstep : ∀ op f g, Streams op → Shows f g → (handle d.quiet op f).1 = (OpenFile.handle op g).1 ∧
      Shows (handle d.quiet op f).2 (OpenFile.handle op g).2 := fun op f g => handle_shows
  exact run_simulates hstep hp h hrun

theorem run_fseek_quiet {offset : Int} (h : 0 ≤ offset) :
    ∃ n, (fseek offset).run (handle d.quiet) f = .ok (true, ⟨f.flushed, [], offset.toNat, f.linked, n⟩) := by
  obtain ⟨n, hafter⟩ := afterFlush_quiet d f
  refine ⟨n, ?_⟩
  simp only [fseek, FileProgram.succeeds, run_bind, run_perform, handle, hafter, h, if_true]
  rfl

/-- What fclose makes of a header that is still in the buffer. -/
def closed (d : DiskFailures) (image : FileImage) (header : Bytes) : FileImage :=
  if d.close then image else image.patch 0 header

theorem writeHeader_quiet {mi : MemIndex} {dt : DocTable} (hfit : indexSize mi dt < 2 ^ 31) {checksum : UInt32}
    (hsum : CRC32.checksum (tablesBytes mi dt) = .ok checksum) (hshows : Shows f g)
    (hholds : g.image.Holds 16 (tablesBytes mi dt)) :
    ∃ n, (writeHeader (docFormat.tableSize dt.idToName) (wordFormat.tableSize mi)).run (handle d.quiet) f =
      .ok (16, ⟨g.image, (indexHeader mi dt checksum).toDisk, 16, g.linked, n⟩) := by
  obtain ⟨crc, hfold, hret⟩ := Run.bind_eq_ok.mp hsum
  obtain rfl : crc.getFinalCRC.1 = checksum := by simpa using hret
  have hsize := indexSize_eq mi dt
  have hlen := length_tablesBytes mi dt
  have hstart : (fseek (IndexFileHeader.sizeof : Nat)).run OpenFile.handle g = .ok (true, { g with pos := 16 }) :=
    run_fseek 16 g
  obtain ⟨f₁, hseek, hshows₁⟩ := run_shows (d := d) (inspects_streams (only_fseek trivial)) hshows hstart
  have hcount : ((docFormat.tableSize dt.idToName : Int) + wordFormat.tableSize mi).toNat =
      (tablesBytes mi dt).length := by omega
  have hadd (f : BufferedFile) : (addInt (docFormat.tableSize dt.idToName) (wordFormat.tableSize mi)).run
      (handle d.quiet) f = .ok ((docFormat.tableSize dt.idToName : Int) + wordFormat.tableSize mi, f) := by
    rw [addInt, intSum_eq (by omega) (by omega)]
    rfl
  have hcrc := readIntoCRC_run _ _ _ hfold g.image 16 g.linked hholds
  obtain ⟨f₂, hread, hshows₂⟩ := run_shows (d := d) (inspects_streams (inspects_readIntoCRC _ _)) hshows₁ hcrc
  have hstart₂ : (fseek (IndexFileHeader.sizeof : Nat)).run OpenFile.handle
      ⟨g.image, 16 + (tablesBytes mi dt).length, g.linked⟩ = .ok (true, ⟨g.image, 16, g.linked⟩) := run_fseek 16 _
  obtain ⟨f₃, hseek₃, hshows₃⟩ := run_shows (d := d) (inspects_streams (only_fseek trivial)) hshows₂ hstart₂
  obtain ⟨n, hseek₄⟩ := run_fseek_quiet (d := d) (f := f₃) (Int.le_refl 0)
  rw [← hshows₃.image, ← hshows₃.linked] at hseek₄
  refine ⟨n, ?_⟩
  simp only [writeHeader, run_bind, hseek, ok_bind, Bool.not_true, Bool.false_eq_true, if_false, hadd, hcount, hread,
    hseek₃, hseek₄]
  rfl

/-- Without a failure before fclose all is well but for what fclose does. -/
theorem writeIndex_quiet {mi : MemIndex} {dt : DocTable} (hrep : Representable mi dt)
    (hfit : indexSize mi dt < 2 ^ 31) (d : DiskFailures) (f : BufferedFile) :
    ∃ checksum file, CRC32.checksum (tablesBytes mi dt) = .ok checksum ∧
      (writeIndex mi dt).run (handle d.quiet) f = .ok ((indexSize mi dt : Int), file) ∧ file.linked = true ∧
      file.image = closed d (FileImage.empty.patch 16 (tablesBytes mi dt)) (indexHeader mi dt checksum).toDisk := by
  obtain ⟨checksum, hsum, _⟩ := CRC32.checksum_run (tablesBytes mi dt)
  let opened : BufferedFile := ⟨.empty, [], 0, true, f.clock⟩
  have hopened : Shows opened ⟨.empty, 0, true⟩ := ⟨Nat.le_refl 0, (FileImage.patch_nil _ _).symm, rfl, rfl⟩
  have hcreate : (FileProgram.succeeds .create).run (handle d.quiet) f = .ok (true, opened) := rfl
  obtain ⟨pos₁, pos₂, hdocs, hwords⟩ := writeTables_run hrep hfit
  obtain ⟨f₁, hdocs₁, hshows₁⟩ := run_shows (d := d)
    (blind_streams (blind_writeHashTable blind_writeDocidToDocnameFn _ _)) hopened hdocs
  obtain ⟨f₂, hwords₂, hshows₂⟩ := run_shows (d := d)
    (blind_streams (blind_writeHashTable blind_writeWordToPostingsFn _ _)) hshows₁ hwords
  obtain ⟨n, hheader⟩ := writeHeader_quiet (d := d) hfit hsum hshows₂ (FileImage.holds_patch _ _ _)
  have hclose : (FileProgram.succeeds .close).run (handle d.quiet)
      ⟨FileImage.empty.patch 16 (tablesBytes mi dt), (indexHeader mi dt checksum).toDisk, 16, true, n⟩ =
      .ok (!d.close, ⟨closed d (FileImage.empty.patch 16 (tablesBytes mi dt))
        (indexHeader mi dt checksum).toDisk, [], 16, true, n⟩) := by
    have hne : (indexHeader mi dt checksum).toDisk ≠ [] := List.ne_nil_of_length_pos (by simp)
    cases hfails : d.close <;>
      simp [FileProgram.succeeds, handle, DiskFailures.quiet, hne, hfails, closed, flushed]
  exact ⟨checksum, _, hsum, run_writeIndex hfit hcreate hdocs₁ hwords₂ hheader hclose, rfl, rfl⟩

/-- Either WriteIndex fails and there is no file, or the file is complete. -/
def AllOrNothing (mi : MemIndex) (dt : DocTable) (d : DiskFailures) (f : BufferedFile) : Prop :=
  ∃ size file, (writeIndex mi dt).run (handle d) f = .ok (size, file) ∧
    (size < 0 ∧ file.linked = false ∨
      size = indexSize mi dt ∧ file.linked = true ∧ IndexFile mi dt file.image)

/-- A flush, seek or read that WriteIndex comes to fails. -/
def FailsBeforeClose (mi : MemIndex) (dt : DocTable) (d : DiskFailures) (f : BufferedFile) : Prop :=
  Meets (handle d.quiet) (Fails d) (writeIndex mi dt) f

variable {mi : MemIndex} {dt : DocTable}

theorem allOrNothing_of_fails (h : FailsBeforeClose mi dt d f) : AllOrNothing mi dt d f := by
  obtain ⟨f', hrun⟩ := run_of_meets (aborts_writeIndex mi dt) (fun op f h => handle_of_not_fails h)
    (fun op f h => ⟨h.1, handle_of_fails h⟩) h
  have hunlink (f : BufferedFile) : (do
      let _ ← FileProgram.succeeds .unlink
      return kFailedWrite : FileProgram Int).run (handle d) f = .ok (kFailedWrite, { f with linked := false }) := rfl
  have hclose : ∃ ok, (FileProgram.succeeds .close).run (handle d) f' = .ok (ok, (handle d .close f').2) := by
    simp only [FileProgram.succeeds, run_bind, run_perform, ok_bind]
    cases (handle d .close f').1 <;> exact ⟨_, rfl⟩
  obtain ⟨ok, hclose⟩ := hclose
  refine ⟨kFailedWrite, { (handle d .close f').2 with linked := false }, ?_, .inl ⟨by decide, rfl⟩⟩
  rw [hrun, abandon, run_bind, hclose, ok_bind, hunlink]

theorem not_indexFile_of_hole {image : FileImage} (h : ∀ i, i < 16 → image.contents i = 0) :
    ¬IndexFile mi dt image := by
  intro hfile
  obtain ⟨_, _, hok⟩ := FileIndexReader.new_run hfile true 0
  exact FileIndexReader.not_headerFits_of_hole h (FileIndexReader.headerFits_of_new hok)

theorem allOrNothing_iff_close (hrep : Representable mi dt) (hfit : indexSize mi dt < 2 ^ 31)
    (h : ¬FailsBeforeClose mi dt d f) : AllOrNothing mi dt d f ↔ d.close = false := by
  obtain ⟨checksum, file, hsum, hquiet, hlinked, himage⟩ := writeIndex_quiet hrep hfit d f
  have hrun : (writeIndex mi dt).run (handle d) f = .ok ((indexSize mi dt : Int), file) := by
    rw [run_of_not_meets (fun op f h => handle_of_not_fails h) h, hquiet]
  cases hfails : d.close with
  | false =>
      rw [closed, hfails, if_neg (by decide), patch_header] at himage
      refine iff_of_true ⟨_, _, hrun, .inr ⟨rfl, hlinked, ?_⟩⟩ rfl
      rw [himage]
      exact indexFile_patch hfit hsum
  | true =>
      rw [closed, hfails, if_pos rfl] at himage
      refine iff_of_false ?_ (by decide)
      rintro ⟨size, file', hrun', hend⟩
      obtain ⟨rfl, rfl⟩ := Prod.mk.inj (Except.ok.inj (hrun.symm.trans hrun'))
      rcases hend with ⟨hneg, _⟩ | ⟨_, _, hfile⟩
      · omega
      · rw [himage] at hfile
        exact not_indexFile_of_hole (fun i hi => FileImage.patch_contents_of_lt hi) hfile

/-- The header is still in the buffer when WriteIndex has decided that it
succeeds, and it does not look at what fclose returns. -/
theorem writeIndex_allOrNothing (hrep : Representable mi dt) (hfit : indexSize mi dt < 2 ^ 31) (d : DiskFailures)
    (f : BufferedFile) : AllOrNothing mi dt d f ↔ d.close = false ∨ FailsBeforeClose mi dt d f := by
  by_cases h : FailsBeforeClose mi dt d f
  · exact iff_of_true (allOrNothing_of_fails h) (.inr h)
  · rw [allOrNothing_iff_close hrep hfit h, or_iff_left h]

end

def newStream : BufferedFile := ⟨.empty, [], 0, false, 0⟩

theorem writeIndex_allOrNothing_small :
    ∃ dt mi, DocTable.build smallNames = .ok dt ∧ MemIndex.build smallAdds = .ok mi ∧
      AllOrNothing mi dt ⟨fun i => i == 7, false⟩ newStream := by
  obtain ⟨dt, mi, hdt, hmi, hfit, _⟩ := build_small
  have hrep := representable_of_build hdt hmi (by decide) (by decide)
  exact ⟨dt, mi, hdt, hmi, (writeIndex_allOrNothing hrep hfit ⟨fun i => i == 7, false⟩ newStream).mpr (.inl rfl)⟩

/-- Only the last flush fails: the size is returned, and the file has no
header. -/
theorem writeIndex_not_allOrNothing :
    ∃ dt mi size file, DocTable.build smallNames = .ok dt ∧ MemIndex.build smallAdds = .ok mi ∧
      (writeIndex mi dt).run (handle ⟨fun _ => false, true⟩) newStream = .ok (size, file) ∧ 0 < size ∧
      file.linked = true ∧ (∀ i, i < 16 → file.image.contents i = 0) ∧
      ¬AllOrNothing mi dt ⟨fun _ => false, true⟩ newStream := by
  obtain ⟨dt, mi, hdt, hmi, hfit, _⟩ := build_small
  have hrep := representable_of_build hdt hmi (by decide) (by decide)
  let d : DiskFailures := ⟨fun _ => false, true⟩
  have hquietd : d.quiet = d := rfl
  obtain ⟨checksum, file, hsum, hquiet, hlinked, himage⟩ := writeIndex_quiet hrep hfit d newStream
  have hclosed : closed d (FileImage.empty.patch 16 (tablesBytes mi dt)) (indexHeader mi dt checksum).toDisk =
      FileImage.empty.patch 16 (tablesBytes mi dt) := if_pos rfl
  have hnever : ¬FailsBeforeClose mi dt d newStream :=
    not_meets fun op f h => not_stalls_quiet d f h.2
  refine ⟨dt, mi, indexSize mi dt, file, hdt, hmi, hquiet, ?_, hlinked, ?_, ?_⟩
  · rw [indexSize]
    omega
  · intro i hi
    rw [himage, hclosed]
    exact FileImage.patch_contents_of_lt hi
  · rw [allOrNothing_iff_close hrep hfit hnever]
    decide

end WriteIndex

end SearchEngine
