import SearchEngine.IndexValidation
import Mathlib.Data.Nat.ModEq

namespace SearchEngine

open FileProgram OpenFile BigEndian

namespace FileImage

variable {image image' : FileImage}

/-- The 32-bit number at an offset. -/
def word (image : FileImage) (off : Nat) : Nat :=
  (((image.contents off).toNat * 256 + (image.contents (off + 1)).toNat) * 256 +
    (image.contents (off + 2)).toNat) * 256 + (image.contents (off + 3)).toNat

theorem value_slice (image : FileImage) (off : Nat) : value (image.slice off 4) = image.word off := by
  have hrange : List.range 4 = [0, 1, 2, 3] := rfl
  simp only [slice, hrange, List.map_cons, List.map_nil, value, List.foldl_cons, List.foldl_nil, word, Nat.add_zero]
  omega

theorem word_lt (image : FileImage) (off : Nat) : image.word off < 2 ^ 32 := by
  have h₀ := (image.contents off).toNat_lt
  have h₁ := (image.contents (off + 1)).toNat_lt
  have h₂ := (image.contents (off + 2)).toNat_lt
  have h₃ := (image.contents (off + 3)).toNat_lt
  rw [word]
  omega

theorem word_high (image : FileImage) (off : Nat) :
    image.word off / 2 ^ 24 = (image.contents off).toNat ∧
      image.word off / 2 ^ 16 = (image.contents off).toNat * 256 + (image.contents (off + 1)).toNat ∧
      image.word off / 2 ^ 8 = ((image.contents off).toNat * 256 + (image.contents (off + 1)).toNat) * 256 +
        (image.contents (off + 2)).toNat := by
  have h₁ := (image.contents (off + 1)).toNat_lt
  have h₂ := (image.contents (off + 2)).toNat_lt
  have h₃ := (image.contents (off + 3)).toNat_lt
  rw [word]
  omega

theorem word_low (image : FileImage) (off : Nat) :
    image.word off % 2 ^ 24 = ((image.contents (off + 1)).toNat * 256 + (image.contents (off + 2)).toNat) * 256 +
        (image.contents (off + 3)).toNat ∧
      image.word off % 2 ^ 16 = (image.contents (off + 2)).toNat * 256 + (image.contents (off + 3)).toNat ∧
      image.word off % 2 ^ 8 = (image.contents (off + 3)).toNat := by
  have h₁ := (image.contents (off + 1)).toNat_lt
  have h₂ := (image.contents (off + 2)).toNat_lt
  have h₃ := (image.contents (off + 3)).toNat_lt
  rw [word]
  omega

theorem contents_of_word {off i : Nat} (h : image'.word off = image.word off) (hle : off ≤ i) (hlt : i < off + 4) :
    image'.contents i = image.contents i := by
  have hhigh := image.word_high off
  have hhigh' := image'.word_high off
  have hlow := image.word_low off
  have hlow' := image'.word_low off
  rw [h] at hhigh' hlow'
  apply UInt8.toNat_inj.mp
  rcases (by omega : i = off ∨ i = off + 1 ∨ i = off + 2 ∨ i = off + 3) with rfl | rfl | rfl | rfl <;> omega

end FileImage

namespace FileIndexReader

variable {image image' : FileImage}

theorem headerOf_eq (image : FileImage) :
    headerOf image = ⟨host32 (image.slice 0 4), host32 (image.slice 4 4), signed (image.slice 8 4),
      signed (image.slice 12 4)⟩ := by
  have hsplit : image.slice 0 16 = image.slice 0 4 ++ (image.slice 4 4 ++ (image.slice 8 4 ++ image.slice 12 4)) := by
    rw [show 16 = 4 + (4 + (4 + 4)) by rfl, FileImage.slice_append, FileImage.slice_append, FileImage.slice_append]
  have hdrop (off : Nat) (ys : Bytes) : (image.slice off 4 ++ ys).drop 4 = ys := List.drop_left' (by simp)
  have htake (off : Nat) (ys : Bytes) : (image.slice off 4 ++ ys).take 4 = image.slice off 4 :=
    List.take_left' (by simp)
  simp only [headerOf, IndexFileHeader.ofDisk, hsplit, hdrop, htake]

theorem host32_inj {off : Nat} (h : host32 (image'.slice off 4) = host32 (image.slice off 4)) :
    image'.word off = image.word off := by
  have hnat := congrArg UInt32.toNat h
  simpa only [host32, FileImage.value_slice, UInt32.toNat_ofNat', Nat.mod_eq_of_lt (FileImage.word_lt _ _)] using hnat

theorem HeaderFits.length_eq (h : HeaderFits image) :
    image.length = (16 + image.word 8 + image.word 12) % 2 ^ 32 := by
  have hsize := h.size
  have hlen (off : Nat) : (2 ^ 32 : Int) = (256 ^ (image.slice off 4).length : Nat) := by simp
  rw [headerOf_eq] at hsize
  simp only [signed, FileImage.length_slice, FileImage.value_slice, Int.bmod] at hsize
  omega

/-- Two numbers of which one keeps what is above m and the other what is below
it cannot change and keep their sum. -/
theorem sum_of_burst {d i d' i' m : Nat} (hi : i < 2 ^ 32) (hi' : i' < 2 ^ 32) (hdvd : m ∣ 2 ^ 32)
    (hhigh : d' / m = d / m) (hlow : i' % m = i % m) (hsum : (16 + d' + i') % 2 ^ 32 = (16 + d + i) % 2 ^ 32) :
    d' = d ∧ i' = i := by
  have hsum' : (d' + i') % 2 ^ 32 = (d + i) % 2 ^ 32 := by omega
  have hmod : (d' + i') % m = (d + i) % m := by
    rw [← Nat.mod_mod_of_dvd (d' + i') hdvd, hsum', Nat.mod_mod_of_dvd _ hdvd]
  have hcancel : Nat.ModEq m (d' + i) (d + i) := by
    rw [Nat.ModEq, ← hmod, Nat.add_mod, Nat.add_mod d' i', hlow]
  have hdlow : d' % m = d % m := Nat.ModEq.add_right_cancel' i hcancel
  have hd_eq : d' = d := by
    rw [← Nat.div_add_mod d' m, hhigh, hdlow, Nat.div_add_mod]
  refine ⟨hd_eq, ?_⟩
  omega

/-- The images are the same outside four bytes in a row. -/
def Burst (start : Nat) (image image' : FileImage) : Prop :=
  ∀ i, i < image.length → image'.contents i ≠ image.contents i → start ≤ i ∧ i < start + 4

theorem Burst.same {start i : Nat} (h : Burst start image image') (hi : i < image.length)
    (hout : i < start ∨ start + 4 ≤ i) : image'.contents i = image.contents i := by
  by_contra hne
  have hwin := h i hi hne
  omega

theorem Burst.sizes {start : Nat} (h : Burst start image image') (hroom : 16 ≤ image.length) :
    ∃ m, m ∣ 2 ^ 32 ∧ image'.word 8 / m = image.word 8 / m ∧ image'.word 12 % m = image.word 12 % m := by
  have hb (i : Nat) (hi : i < 16) (hout : i < start ∨ start + 4 ≤ i) : image'.contents i = image.contents i :=
    h.same (by omega) hout
  rcases (by omega : start ≤ 8 ∨ start = 9 ∨ start = 10 ∨ start = 11 ∨ 12 ≤ start) with hs | rfl | rfl | rfl | hs
  · refine ⟨2 ^ 32, Nat.dvd_refl _, ?_, ?_⟩
    · rw [Nat.div_eq_of_lt (image'.word_lt 8), Nat.div_eq_of_lt (image.word_lt 8)]
    · rw [FileImage.word, hb 12 (by decide) (by omega), hb 13 (by decide) (by omega), hb 14 (by decide) (by omega),
        hb 15 (by decide) (by omega), FileImage.word]
  · refine ⟨2 ^ 24, by decide, ?_, ?_⟩
    · rw [(image'.word_high 8).1, hb 8 (by decide) (by decide), (image.word_high 8).1]
    · rw [(image'.word_low 12).1, hb 13 (by decide) (by decide), hb 14 (by decide) (by decide),
        hb 15 (by decide) (by decide), (image.word_low 12).1]
  · refine ⟨2 ^ 16, by decide, ?_, ?_⟩
    · rw [(image'.word_high 8).2.1, hb 8 (by decide) (by decide), hb 9 (by decide) (by decide),
        (image.word_high 8).2.1]
    · rw [(image'.word_low 12).2.1, hb 14 (by decide) (by decide), hb 15 (by decide) (by decide),
        (image.word_low 12).2.1]
  · refine ⟨2 ^ 8, by decide, ?_, ?_⟩
    · rw [(image'.word_high 8).2.2, hb 8 (by decide) (by decide), hb 9 (by decide) (by decide),
        hb 10 (by decide) (by decide), (image.word_high 8).2.2]
    · rw [(image'.word_low 12).2.2, hb 15 (by decide) (by decide), (image.word_low 12).2.2]
  · refine ⟨1, by decide, ?_, by omega⟩
    rw [FileImage.word, hb 8 (by decide) (by omega), hb 9 (by decide) (by omega), hb 10 (by decide) (by omega),
      hb 11 (by decide) (by omega), FileImage.word]

/-- Of a header that still fits, a burst has changed the checksum at most. -/
theorem HeaderFits.of_burst {start : Nat} (h : Burst start image image') (hlen : image'.length = image.length)
    (hfits : HeaderFits image) (hfits' : HeaderFits image') {i : Nat} (hi : i < 16) (hout : i < 4 ∨ 8 ≤ i) :
    image'.contents i = image.contents i := by
  rcases hout with hlt | hle
  · have hmagic := hfits'.magicNumber.trans hfits.magicNumber.symm
    rw [headerOf_eq, headerOf_eq] at hmagic
    exact FileImage.contents_of_word (host32_inj hmagic) (Nat.zero_le i) (by omega)
  · obtain ⟨m, hdvd, hhigh, hlow⟩ := h.sizes hfits.room
    have hsum := hfits'.length_eq.symm.trans (hlen.trans hfits.length_eq)
    obtain ⟨hdoc, hindex⟩ := sum_of_burst (image.word_lt 12) (image'.word_lt 12) hdvd hhigh hlow hsum
    by_cases hlast : 12 ≤ i
    · exact FileImage.contents_of_word hindex hlast (by omega)
    · exact FileImage.contents_of_word hdoc hle (by omega)

theorem checkBody_ok {r : FileIndexReader × OpenFile} (h : checkBody image = .ok r) :
    ∃ left, intSum (headerOf image).doctableBytes (headerOf image).indexBytes = .ok left ∧
      CRC32.checksum (image.slice 16 left.toNat) = .ok (headerOf image).checksum := by
  obtain ⟨left, hsum, h⟩ := Run.bind_eq_ok.mp h
  obtain ⟨checksum, hcrc, h⟩ := Run.bind_eq_ok.mp h
  refine ⟨left, hsum, ?_⟩
  split at h
  · next hsame => rw [hcrc, hsame]
  · cases h

theorem HeaderFits.length_left {left : Int} (hfits : HeaderFits image) (hsmall : image.length < 2 ^ 31)
    (hsum : intSum (headerOf image).doctableBytes (headerOf image).indexBytes = .ok left) :
    16 + left.toNat = image.length := by
  have hmax : (INT_MAX : Int) = 2147483647 := rfl
  have hroom := hfits.room
  have hsize := hfits.size
  unfold intSum at hsum
  split at hsum
  · have heq := Except.ok.inj hsum
    omega
  · cases hsum

/-- The bodies have one checksum only if a burst has left them alone. -/
theorem Burst.body {start n : Nat} (h : Burst start image image') (hn : 16 + n ≤ image.length) {c : UInt32}
    (hcrc : CRC32.checksum (image.slice 16 n) = .ok c) (hcrc' : CRC32.checksum (image'.slice 16 n) = .ok c) :
    image'.slice 16 n = image.slice 16 n := by
  obtain ⟨a, m, rest, rfl, hm, hbefore, hafter⟩ : ∃ a m rest, n = a + (m + rest) ∧ m ≤ 4 ∧
      (a = 0 ∨ 16 + a ≤ start) ∧ (rest = 0 ∨ start + 4 ≤ 16 + a + m) := by
    refine ⟨min (start - 16) n, min 4 (n - min (start - 16) n), n - min (start - 16) n - min 4 (n - min (start - 16) n),
      ?_, ?_, ?_, ?_⟩ <;> omega
  have hpre : image'.slice 16 a = image.slice 16 a :=
    FileImage.slice_congr fun i hle hlt => h.same (by omega) (by omega)
  have hpost : image'.slice (16 + a + m) rest = image.slice (16 + a + m) rest :=
    FileImage.slice_congr fun i hle hlt => h.same (by omega) (by omega)
  rw [FileImage.slice_append, FileImage.slice_append] at hcrc hcrc' ⊢
  rw [hpre, hpost] at hcrc'
  have hsame : image'.slice (16 + a) m = image.slice (16 + a) m :=
    CRC32.checksum_burst _ _ (by simp) (by simpa using hm) hcrc' hcrc
  rw [FileImage.slice_append, FileImage.slice_append, hpre, hpost, hsame]

/-- Of a file that is accepted, no file that differs in four bytes in a row
at most is. -/
theorem new_burst {start : Nat} (h : Burst start image image') (hlen : image'.length = image.length)
    (hsmall : image.length < 2 ^ 31) {pos₀ : Nat} {r : FileIndexReader × OpenFile}
    (hok : (new true).run handle ⟨image, pos₀, true⟩ = .ok r)
    (hdiff : ∃ i, i < image.length ∧ image'.contents i ≠ image.contents i) (pos : Nat) :
    (new true).run handle ⟨image', pos, true⟩ = .error .verify333 := by
  obtain ⟨j, hj, hne⟩ := hdiff
  rw [new_eq] at hok ⊢
  by_cases hfits : HeaderFits image
  · rw [if_pos hfits] at hok
    split
    · next hfits' =>
      obtain ⟨left, hsum, hcrc⟩ := checkBody_ok hok
      have hleft := hfits.length_left hsmall hsum
      have hheader {i : Nat} (hi : i < 16) (hout : i < 4 ∨ 8 ≤ i) : image'.contents i = image.contents i :=
        hfits.of_burst h hlen hfits' hi hout
      have hsum' : intSum (headerOf image').doctableBytes (headerOf image').indexBytes = .ok left := by
        have h8 : image'.slice 8 4 = image.slice 8 4 :=
          FileImage.slice_congr fun i hle hlt => hheader (by omega) (.inr (by omega))
        have h12 : image'.slice 12 4 = image.slice 12 4 :=
          FileImage.slice_congr fun i hle hlt => hheader (by omega) (.inr (by omega))
        rw [← hsum, headerOf_eq, headerOf_eq]
        simp only
        rw [h8, h12]
      obtain ⟨c, hc, _⟩ := CRC32.checksum_run (image'.slice 16 left.toNat)
      have hbad : c ≠ (headerOf image').checksum := by
        rintro rfl
        by_cases hwin : start + 4 ≤ 16
        · -- the burst is in the header, and its checksum is that of the body
          have hbody : image'.slice 16 left.toNat = image.slice 16 left.toNat :=
            FileImage.slice_congr fun i hle hlt => h.same (by omega) (.inr (by omega))
          rw [hbody, hcrc, headerOf_eq, headerOf_eq] at hc
          have hword := host32_inj (Except.ok.inj hc).symm
          by_cases hj16 : j < 16
          · by_cases hout : j < 4 ∨ 8 ≤ j
            · exact hne (hheader hj16 hout)
            · exact hne (FileImage.contents_of_word hword (by omega) (by omega))
          · exact hne (h.same hj (.inr (by omega)))
        · -- the burst is in the body, or next to it
          have hsumfield : (headerOf image').checksum = (headerOf image).checksum := by
            rw [headerOf_eq, headerOf_eq]
            simp only
            rw [FileImage.slice_congr fun i hle hlt => h.same (by omega) (.inl (by omega))]
          rw [hsumfield] at hc
          have hbody := h.body (Nat.le_of_eq hleft) hcrc hc
          by_cases hj16 : j < 16
          · by_cases hout : j < 4 ∨ 8 ≤ j
            · exact hne (hheader hj16 hout)
            · exact hne (h.same hj (.inl (by omega)))
          · exact hne (FileImage.contents_of_slice hbody (by omega) (by omega))
      rw [checkBody, hsum', Run.ok_bind, hc, Run.ok_bind, if_neg hbad]
    · rfl
  · rw [if_neg hfits] at hok
    cases hok

/-- A burst in an index file is always detected. -/
theorem writeIndex_burst_detected {mi : MemIndex} {dt : DocTable} (hrep : WriteIndex.Representable mi dt)
    (hfit : indexSize mi dt < 2 ^ 31) {f file : OpenFile} {size : Int}
    (hwrite : (WriteIndex.writeIndex mi dt).run handle f = .ok (size, file)) (image' : FileImage)
    (hlen : image'.length = file.image.length) (start : Nat) (hburst : Burst start file.image image')
    (hdiff : ∃ i, i < file.image.length ∧ image'.contents i ≠ file.image.contents i) (pos : Nat) :
    (new true).run handle ⟨image', pos, true⟩ = .error .verify333 := by
  obtain ⟨checksum, pos', hsum, hrun⟩ := WriteIndex.writeIndex_writes hrep hfit f
  obtain rfl := (Prod.mk.inj (Except.ok.inj (hrun.symm.trans hwrite))).2
  have hfile := indexFile_patch hfit hsum
  obtain ⟨_, _, hok⟩ := new_run hfile true 0
  exact new_burst hburst hlen (by rw [hfile.length]; exact hfit) hok hdiff pos

theorem writeIndex_burst_detected_small :
    ∃ dt mi size file image', DocTable.build smallNames = .ok dt ∧ MemIndex.build smallAdds = .ok mi ∧
      (WriteIndex.writeIndex mi dt).run handle ⟨.empty, 0, false⟩ = .ok (size, file) ∧
      image'.length = file.image.length ∧ image'.contents 14 ≠ file.image.contents 14 ∧
      (new true).run handle ⟨image', 0, true⟩ = .error .verify333 := by
  obtain ⟨dt, mi, hdt, hmi, hfit, _⟩ := build_small
  have hrep := representable_of_build hdt hmi (by decide) (by decide)
  obtain ⟨checksum, pos, hsum, hwrite⟩ := WriteIndex.writeIndex_writes hrep hfit ⟨.empty, 0, false⟩
  have hfile := indexFile_patch hfit hsum
  generalize FileImage.empty.patch 0 ((indexHeader mi dt checksum).toDisk ++ tablesBytes mi dt) = image at hwrite hfile
  have hroom : 16 ≤ image.length := by
    rw [hfile.length, indexSize]
    omega
  let image' : FileImage := ⟨image.length, fun i => if i = 14 then image.contents i + 1 else image.contents i⟩
  have hne : image'.contents 14 ≠ image.contents 14 := by
    simp [image']
  refine ⟨dt, mi, _, _, image', hdt, hmi, hwrite, rfl, hne, ?_⟩
  apply writeIndex_burst_detected hrep hfit hwrite image' rfl 14 _ ⟨14, by simp only; omega, hne⟩ 0
  intro i _ hi
  by_cases h : i = 14
  · omega
  · simp [image', h] at hi

end FileIndexReader

end SearchEngine
