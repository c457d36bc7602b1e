import SearchEngine.IndexRoundTrip

namespace SearchEngine

open FileProgram Program OpenFile HashTableReader

theorem FileProgram.run_freadVerified_slice {f : OpenFile} {n : Nat} (hn : n ≠ 0) (h : f.pos + n ≤ f.image.length) :
    (freadVerified n).run handle f = .ok (f.image.slice f.pos n, { f with pos := f.pos + n }) :=
  run_freadVerified (FileImage.holds_slice h) (FileImage.length_slice _ _ _) hn

theorem FileProgram.run_freadVerified_short {f : OpenFile} {n : Nat} (h : f.image.length < f.pos + n) :
    (freadVerified n).run handle f = .error .verify333 := by
  simp only [freadVerified, fread, run_bind, run_perform, handle, Nat.not_le.mpr h, if_false]
  rfl

theorem FileProgram.run_verify333_false (f : OpenFile) :
    (FileProgram.verify333 false).run handle f = .error .verify333 := (rfl)

namespace FileIndexReader

variable {image : FileImage}

def headerOf (image : FileImage) : IndexFileHeader := IndexFileHeader.ofDisk (image.slice 0 16)

/-- What is asked of the header before the checksum. -/
structure HeaderFits (image : FileImage) : Prop where
  room : 16 ≤ image.length
  magicNumber : (headerOf image).magicNumber = kMagicNumber
  size : (image.length : Int) = (16 + (headerOf image).doctableBytes + (headerOf image).indexBytes) % 2 ^ 32

instance (image : FileImage) : Decidable (HeaderFits image) :=
  decidable_of_iff (16 ≤ image.length ∧ (headerOf image).magicNumber = kMagicNumber ∧
      (image.length : Int) = (16 + (headerOf image).doctableBytes + (headerOf image).indexBytes) % 2 ^ 32)
    ⟨fun ⟨h₁, h₂, h₃⟩ => ⟨h₁, h₂, h₃⟩, fun h => ⟨h.room, h.magicNumber, h.size⟩⟩

def checkBody (image : FileImage) : Run (FileIndexReader × OpenFile) := do
  let leftToRead ← intSum (headerOf image).doctableBytes (headerOf image).indexBytes
  let checksum ← CRC32.checksum (image.slice 16 leftToRead.toNat)
  if checksum = (headerOf image).checksum then
    return (⟨headerOf image⟩, ⟨image, 16 + leftToRead.toNat, true⟩)
  else .error .verify333

theorem readBuffers_slice {left : Int} (pos : Nat) (linked : Bool) (h : pos + left.toNat ≤ image.length) :
    ∃ crc, (readBuffers (left.toNat + 1) left .new).run handle ⟨image, pos, linked⟩ =
        .ok (crc, ⟨image, pos + left.toNat, linked⟩) ∧
      CRC32.checksum (image.slice pos left.toNat) = .ok crc.getFinalCRC.1 := by
  obtain ⟨crc, hfold, _⟩ := CRC32.new.foldBytes_ok rfl (image.slice pos left.toNat)
  refine ⟨crc, ?_, by rw [CRC32.checksum, hfold]; rfl⟩
  by_cases hpos : 0 < left
  · have hrun := readBuffers_run (left.toNat + 1) (image.slice pos left.toNat)
      (by rw [FileImage.length_slice]; omega) _ _ hfold pos linked (FileImage.holds_slice h)
    rw [FileImage.length_slice, Int.toNat_of_nonneg (Int.le_of_lt hpos)] at hrun
    exact hrun
  · have hzero : left.toNat = 0 := by omega
    rw [hzero] at hfold ⊢
    obtain rfl : CRC32.new = crc := by simpa [CRC32.foldBytes, FileImage.slice] using hfold
    simp [readBuffers, hpos]

theorem new_checkBody (hroom : 16 ≤ image.length) (hsize : (image.length : Int) =
    (16 + (headerOf image).doctableBytes + (headerOf image).indexBytes) % 2 ^ 32) :
    (((addInt (headerOf image).doctableBytes (headerOf image).indexBytes).run handle ⟨image, 16, true⟩).bind fun r =>
      ((readBuffers (r.1.toNat + 1) r.1 .new).run handle r.2).bind fun r =>
        ((FileProgram.verify333 (decide (r.1.getFinalCRC.1 = (headerOf image).checksum))).run handle r.2).bind fun r =>
          (pure ⟨headerOf image⟩ : FileProgram FileIndexReader).run handle r.2) = checkBody image := by
  cases hsum : intSum (headerOf image).doctableBytes (headerOf image).indexBytes with
  | error e =>
      rw [addInt, hsum, ofRun, run_fail, checkBody, hsum, Run.error_bind, Program.error_bind]
  | ok left =>
      have hleft : left = (headerOf image).doctableBytes + (headerOf image).indexBytes ∧ left ≤ 2147483647 := by
        have hmax : (INT_MAX : Int) = 2147483647 := rfl
        unfold intSum at hsum
        split at hsum
        · have heq := Except.ok.inj hsum
          omega
        · cases hsum
      have hroom : 16 + left.toNat ≤ image.length := by omega
      obtain ⟨crc, hloop, hcrc⟩ := readBuffers_slice 16 true hroom
      simp only [addInt, hsum, run_ofRun_ok, ok_bind, hloop, checkBody, Run.ok_bind, hcrc]
      by_cases hsame : crc.getFinalCRC.1 = (headerOf image).checksum
      · simp only [hsame, decide_true, run_verify333, ok_bind, if_true]
        rfl
      · simp only [hsame, decide_false, run_verify333_false, if_false, Program.error_bind]

/-- What the constructor makes of any file. -/
theorem new_eq (image : FileImage) (pos : Nat) :
    (new true).run handle ⟨image, pos, true⟩ =
      if HeaderFits image then checkBody image else .error .verify333 := by
  have hopen : (succeeds .openRead).run handle ⟨image, pos, true⟩ = .ok (true, ⟨image, 0, true⟩) := rfl
  have hstat (f : OpenFile) : fileSize.run handle f = .ok (f.image.length, f) := rfl
  by_cases hroom : 16 ≤ image.length
  · have hread : (freadVerified 16).run handle ⟨image, 0, true⟩ = .ok (image.slice 0 16, ⟨image, 16, true⟩) :=
      run_freadVerified_slice (by decide) (by simpa using hroom)
    have hheader : IndexFileHeader.ofDisk (image.slice 0 16) = headerOf image := rfl
    by_cases hmagic : (headerOf image).magicNumber = kMagicNumber
    · by_cases hsize : (image.length : Int) =
          (16 + (headerOf image).doctableBytes + (headerOf image).indexBytes) % 2 ^ 32
      · rw [if_pos ⟨hroom, hmagic, hsize⟩]
        have hsize' : (image.length : Int) =
            (((16 : Nat) : Int) + (headerOf image).doctableBytes + (headerOf image).indexBytes) % 2 ^ 32 := hsize
        simp only [new, run_bind, hopen, ok_bind, run_verify333, IndexFileHeader.sizeof, hread, hheader, hstat,
          decide_eq_true hmagic, decide_eq_true hsize', if_true]
        exact new_checkBody hroom hsize
      · rw [if_neg fun h => hsize h.size]
        have hsize' : ¬(image.length : Int) =
            (((16 : Nat) : Int) + (headerOf image).doctableBytes + (headerOf image).indexBytes) % 2 ^ 32 := hsize
        simp only [new, run_bind, hopen, ok_bind, run_verify333, IndexFileHeader.sizeof, hread, hheader, hstat,
          decide_eq_true hmagic, decide_eq_false hsize', run_verify333_false, Program.error_bind]
    · rw [if_neg fun h => hmagic h.magicNumber]
      simp only [new, run_bind, hopen, ok_bind, run_verify333, IndexFileHeader.sizeof, hread, hheader,
        decide_eq_false hmagic, run_verify333_false, Program.error_bind]
  · have hread := run_freadVerified_short (f := ⟨image, 0, true⟩) (n := 16) (by simp only; omega)
    rw [if_neg fun h => hroom h.room]
    simp only [new, run_bind, hopen, ok_bind, run_verify333, IndexFileHeader.sizeof, hread, Program.error_bind]

end FileIndexReader

end SearchEngine
