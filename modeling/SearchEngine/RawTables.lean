import SearchEngine.IndexValidation
import SearchEngine.WriteTrace

/-! The readers on files of any content. -/

namespace SearchEngine

open FileProgram Program OpenFile

namespace FileImage

def Within (image : FileImage) (off : Int) (n : Nat) : Prop := 0 ≤ off ∧ off.toNat + n ≤ image.length

instance (image : FileImage) (off : Int) (n : Nat) : Decidable (image.Within off n) :=
  inferInstanceAs (Decidable (_ ∧ _))

def bytesAt (image : FileImage) (off : Int) (n : Nat) : Bytes := image.slice off.toNat n

end FileImage

namespace FileProgram

variable {α β : Type}

theorem run_fseekVerified_neg {off : Int} (h : ¬0 ≤ off) (f : OpenFile) :
    (fseekVerified off).run handle f = .error .verify333 := by
  rw [fseekVerified, run_bind, run_fseek, ok_bind, decide_eq_false h]
  rfl

/-- A seek and a read behind one another: the bytes, if they are in the file. -/
theorem run_seekRead {off : Int} {n : Nat} (hn : n ≠ 0) (k : Bytes → FileProgram α) (f : OpenFile) :
    (do
      fseekVerified off
      let bs ← freadVerified n
      k bs).run handle f =
      if f.image.Within off n then (k (f.image.bytesAt off n)).run handle { f with pos := off.toNat + n }
      else .error .verify333 := by
  by_cases hneg : 0 ≤ off
  · by_cases hin : off.toNat + n ≤ f.image.length
    · rw [if_pos ⟨hneg, hin⟩, run_bind, run_fseekVerified hneg, ok_bind, run_bind,
        run_freadVerified_slice hn (by exact hin), ok_bind]
      rfl
    · rw [if_neg fun h => hin h.2, run_bind, run_fseekVerified hneg, ok_bind, run_bind,
        run_freadVerified_short (by simp only; omega), Program.error_bind]
  · rw [if_neg fun h => hneg h.1, run_bind, run_fseekVerified_neg hneg, Program.error_bind]

/-- The loops that read one field after the other. -/
def readEach (size : Nat) (decode : Bytes → α) : Nat → FileProgram (List α)
  | 0 => return []
  | n + 1 => do
      let item := decode (← freadVerified size)
      let rest ← readEach size decode n
      return item :: rest

theorem run_readEach {size : Nat} (hsize : size ≠ 0) (decode : Bytes → α) (n : Nat) (f : OpenFile) :
    (readEach size decode n).run handle f = if n = 0 ∨ f.pos + size * n ≤ f.image.length then
      .ok ((List.range n).map fun j => decode (f.image.slice (f.pos + size * j) size),
        { f with pos := f.pos + size * n })
    else .error .verify333 := by
  induction n generalizing f with
  | zero => rfl
  | succ n ih =>
      have hstep : ∀ j, f.pos + size * (j + 1) = f.pos + size + size * j := by
        intro j
        rw [Nat.mul_succ]
        omega
      have hlist : (List.range (n + 1)).map (fun j => decode (f.image.slice (f.pos + size * j) size)) =
          decode (f.image.slice f.pos size) ::
            (List.range n).map fun j => decode (f.image.slice (f.pos + size + size * j) size) := by
        rw [List.range_succ_eq_map, List.map_cons, List.map_map]
        apply congrArg (List.cons _)
        apply List.map_congr_left
        intro j _
        rw [Function.comp_apply, Nat.succ_eq_add_one, hstep j]
      have hiff : n + 1 = 0 ∨ f.pos + size * (n + 1) ≤ f.image.length ↔
          f.pos + size + size * n ≤ f.image.length := by
        rw [hstep n]
        omega
      rw [if_congr hiff rfl rfl, hlist, hstep n]
      by_cases hfirst : f.pos + size ≤ f.image.length
      · rw [readEach, run_bind, run_freadVerified_slice hsize hfirst, ok_bind, run_bind, ih]
        by_cases hall : f.pos + size + size * n ≤ f.image.length
        · rw [if_pos hall, if_pos (.inr hall), ok_bind, run_pure]
        · have hsome : n ≠ 0 := by
            rintro rfl
            rw [Nat.mul_zero] at hall
            omega
          rw [if_neg hall, if_neg fun h => h.elim hsome hall, Program.error_bind]
      · have hnone : ¬f.pos + size + size * n ≤ f.image.length := by
          generalize size * n = m
          omega
        rw [if_neg hnone, readEach, run_bind, run_freadVerified_short (by omega), Program.error_bind]

/-- The operations of the readers. -/
def Reads : FileOp → Prop
  | .seek _ => True
  | .read n => n ≠ 0
  | _ => False

theorem only_fseekVerified (offset : Int) : Only Reads (fseekVerified offset) := by
  apply (only_fseek trivial).bind
  intro ok
  exact only_ofRun _

theorem only_freadVerified {n : Nat} (hn : n ≠ 0) : Only Reads (freadVerified n) := by
  apply (only_fread hn).bind
  intro r
  cases r with
  | none => exact .fail _
  | some bytes => exact .pure _

/-- Reading leaves the file alone, and does not depend on whether it has a
name. -/
theorem run_linked {p : FileProgram α} (hp : Only Reads p) {image : FileImage} {pos : Nat} {linked : Bool}
    {f' : OpenFile} {a : α} (h : p.run handle ⟨image, pos, linked⟩ = .ok (a, f')) :
    ∃ pos', f' = ⟨image, pos', linked⟩ ∧
      ∀ linked', p.run handle ⟨image, pos, linked'⟩ = .ok (a, ⟨image, pos', linked'⟩) := by
  induction hp generalizing pos with
  | done b =>
      obtain ⟨rfl, rfl⟩ := Prod.mk.inj (Except.ok.inj h)
      exact ⟨pos, rfl, fun _ => rfl⟩
  | fail e => cases h
  | @call op next hop _ ih =>
      have hstep : ∃ r pos₁, ∀ linked, handle op ⟨image, pos, linked⟩ = (r, ⟨image, pos₁, linked⟩) := by
        cases op with
        | seek offset =>
            by_cases hneg : 0 ≤ offset
            · exact ⟨.done, offset.toNat, fun _ => by simp [handle, hneg]⟩
            · exact ⟨.failed, pos, fun _ => by simp [handle, hneg]⟩
        | read n =>
            by_cases hin : pos + n ≤ image.length
            · exact ⟨.data (image.slice pos n), pos + n, fun _ => by simp [handle, hin]⟩
            · exact ⟨.failed, pos, fun _ => by simp [handle, hin]⟩
        | create | openRead | write | sync | size | close | unlink => exact hop.elim
      obtain ⟨r, pos₁, hstep⟩ := hstep
      rw [Program.run, hstep] at h
      obtain ⟨pos', hf', hall⟩ := ih r h
      refine ⟨pos', hf', ?_⟩
      intro linked'
      rw [Program.run, hstep]
      exact hall linked'

end FileProgram

namespace HashTableReader

variable {α : Type}

/-- The reader of the table that starts at an offset. -/
def tableReader (image : FileImage) (off : Int) : HashTableReader :=
  ⟨off, (BucketListHeader.ofDisk (image.bytesAt off BucketListHeader.sizeof)).numBuckets⟩

def HasTable (image : FileImage) (off : Int) : Prop := image.Within off BucketListHeader.sizeof

instance (image : FileImage) (off : Int) : Decidable (HasTable image off) :=
  inferInstanceAs (Decidable (image.Within _ _))

theorem run_new (off : Int) (f : OpenFile) :
    (new off).run handle f = if HasTable f.image off then
      .ok (tableReader f.image off, { f with pos := off.toNat + BucketListHeader.sizeof }) else .error .verify333 := by
  rw [new, run_seekRead (by decide)]
  rfl

theorem only_new (off : Int) : Only Reads (new off) := by
  apply (only_fseekVerified _).bind
  intro _
  apply (only_freadVerified (by decide)).bind
  intro bs
  exact .pure _

theorem only_readPositions (n : Nat) : Only Reads (readPositions n) := by
  induction n with
  | zero => exact .pure _
  | succ n ih =>
      apply (only_freadVerified (by decide)).bind
      intro bs
      apply ih.bind
      intro rest
      exact .pure _

theorem only_readChars (n : Nat) : Only Reads (readChars n) := by
  induction n with
  | zero => exact .pure _
  | succ n ih =>
      apply (only_freadVerified (by decide)).bind
      intro nextChar
      apply ih.bind
      intro rest
      exact .pure _

theorem only_lookupElementPositions (r : HashTableReader) (key : UInt64) :
    Only Reads (r.lookupElementPositions key) := by
  apply (only_ofRun _).bind
  intro n
  apply (only_fseekVerified _).bind
  intro _
  apply (only_freadVerified (by decide)).bind
  intro bs
  apply (only_fseekVerified _).bind
  intro _
  exact only_readPositions _

theorem only_firstMatch {matchAt : Int → FileProgram (Option α)} (h : ∀ p, Only Reads (matchAt p))
    (ps : List Int) : Only Reads (firstMatch matchAt ps) := by
  induction ps with
  | nil => exact .pure _
  | cons p ps ih =>
      apply (h p).bind
      intro r
      cases r with
      | none => exact ih
      | some a => exact .pure _

theorem run_readChars (n : Nat) (f : OpenFile) :
    (readChars n).run handle f = if n = 0 ∨ f.pos + n ≤ f.image.length then
      .ok (f.image.slice f.pos n, { f with pos := f.pos + n }) else .error .verify333 := by
  induction n generalizing f with
  | zero => rfl
  | succ n ih =>
      have hiff : n + 1 = 0 ∨ f.pos + (n + 1) ≤ f.image.length ↔ f.pos + (n + 1) ≤ f.image.length := by omega
      rw [if_congr hiff rfl rfl]
      by_cases hfirst : f.pos + 1 ≤ f.image.length
      · have hsplit := f.image.slice_append f.pos 1 n
        rw [Nat.add_comm 1 n] at hsplit
        rw [readChars, run_bind, run_freadVerified_slice (by decide) hfirst, ok_bind, run_bind, ih]
        by_cases hall : f.pos + (n + 1) ≤ f.image.length
        · rw [if_pos hall, if_pos (.inr (by simp only; omega)), ok_bind, run_pure, hsplit,
            Nat.add_assoc, Nat.add_comm 1 n]
        · rw [if_neg hall, if_neg (by simp only; omega), Program.error_bind]
      · rw [if_neg (by omega), readChars, run_bind, run_freadVerified_short (by omega), Program.error_bind]

def recordAt (image : FileImage) (p : Int) : BucketRecord :=
  BucketRecord.ofDisk (image.bytesAt p BucketRecord.sizeof)

def positionAt (image : FileImage) (p : Nat) : Int :=
  (ElementPositionRecord.ofDisk (image.slice p ElementPositionRecord.sizeof)).position

/-- The positions that the record of a bucket leads to. -/
def chainOf (image : FileImage) (record : BucketRecord) : List Int :=
  (List.range record.chainNumElements.toNat).map fun j => positionAt image (record.position.toNat + 4 * j)

/-- The chain lies within the file, if there is one. -/
structure HasChain (image : FileImage) (record : BucketRecord) : Prop where
  nonneg : 0 ≤ record.position
  room : record.chainNumElements.toNat = 0 ∨
    record.position.toNat + 4 * record.chainNumElements.toNat ≤ image.length

theorem run_readPositions (n : Nat) (f : OpenFile) :
    (readPositions n).run handle f = if n = 0 ∨ f.pos + 4 * n ≤ f.image.length then
      .ok ((List.range n).map fun j => positionAt f.image (f.pos + 4 * j), { f with pos := f.pos + 4 * n })
    else .error .verify333 := by
  have heq : readPositions n = readEach 4 (fun bs => (ElementPositionRecord.ofDisk bs).position) n := by
    induction n with
    | zero => rfl
    | succ n ih =>
        rw [readPositions, ih]
        rfl
  rw [heq, run_readEach (by decide)]
  rfl

/-- The offset at which a lookup reads the record of a bucket. -/
def recordOffset (r : HashTableReader) (i : Int) : Int :=
  int32 (r.offset + BucketListHeader.sizeof + BucketRecord.sizeof * i)

/-- What a lookup reads of the bucket of a key is in the file. -/
structure BucketOf (image : FileImage) (r : HashTableReader) (key : UInt64) (i : Int) : Prop where
  num : r.bucketNum key = .ok i
  record : image.Within (r.recordOffset i) BucketRecord.sizeof
  chain : HasChain image (recordAt image (r.recordOffset i))

theorem BucketOf.returns {image : FileImage} {r : HashTableReader} {key : UInt64} {i : Int}
    (h : BucketOf image r key i) :
    Returns image (r.lookupElementPositions key) (chainOf image (recordAt image (r.recordOffset i))) := by
  intro pos linked
  let record := recordAt image (r.recordOffset i)
  have hchase := run_fseekVerified (f := ⟨image, (r.recordOffset i).toNat + BucketRecord.sizeof, linked⟩) h.chain.nonneg
  refine ⟨record.position.toNat + 4 * record.chainNumElements.toNat, ?_⟩
  rw [lookupElementPositions, h.num, run_bind, run_ofRun_ok, ok_bind, ← recordOffset, run_seekRead (by decide),
    if_pos h.record, run_bind, ← recordAt, hchase, ok_bind, run_readPositions, if_pos h.chain.room]
  rfl

/-- The rest of the lookup of a bucket, from its record on. -/
def readChain (record : BucketRecord) : FileProgram (List Int) := do
  fseekVerified record.position
  readPositions record.chainNumElements.toNat

theorem readChain_of_run {record : BucketRecord} {f f' : OpenFile} {ps : List Int}
    (h : (readChain record).run handle f = .ok (ps, f')) :
    f'.image = f.image ∧ HasChain f.image record ∧ ps = chainOf f.image record := by
  rw [readChain, run_bind] at h
  by_cases hneg : 0 ≤ record.position
  · rw [run_fseekVerified hneg, ok_bind, run_readPositions] at h
    split at h
    · next hroom =>
      obtain ⟨hps, hf'⟩ := Prod.mk.inj (Except.ok.inj h)
      exact ⟨by rw [← hf'], ⟨hneg, hroom⟩, hps.symm⟩
    · cases h
  · rw [run_fseekVerified_neg hneg] at h
    cases h

theorem bucketOf_of_run {r : HashTableReader} {key : UInt64} {f f' : OpenFile} {ps : List Int}
    (h : (r.lookupElementPositions key).run handle f = .ok (ps, f')) :
    f'.image = f.image ∧ ∃ i, BucketOf f.image r key i ∧
      ps = chainOf f.image (recordAt f.image (r.recordOffset i)) := by
  rw [lookupElementPositions] at h
  cases hnum : r.bucketNum key with
  | error e =>
      rw [hnum] at h
      cases h
  | ok i =>
      rw [hnum, run_bind, run_ofRun_ok, ok_bind, ← recordOffset, run_seekRead (by decide)] at h
      split at h
      · next hrecord =>
        obtain ⟨hf', hchain, hps⟩ := readChain_of_run h
        exact ⟨hf', i, ⟨hnum, hrecord, hchain⟩, hps⟩
      · cases h

theorem firstMatch_append {matchAt : Int → FileProgram (Option α)} {image : FileImage} {pre : List Int}
    (post : List Int) {p : Int} {a : α} (hpre : ∀ q ∈ pre, Returns image (matchAt q) none)
    (hp : Returns image (matchAt p) (some a)) :
    Returns image (firstMatch matchAt (pre ++ p :: post)) (some a) := by
  induction pre with
  | nil => exact hp.bind (.pure image (some a))
  | cons q pre ih => exact (hpre q (by simp)).bind (ih fun q' hq' => hpre q' (by simp [hq']))

/-- A search that ends at an element has passed those before it. -/
theorem firstMatch_some {matchAt : Int → FileProgram (Option α)} {image : FileImage} {Passed : Int → Prop}
    {Ends : Int → α → Prop}
    (hnone : ∀ q f f', f.image = image → (matchAt q).run handle f = .ok (none, f') → f'.image = image ∧ Passed q)
    (hsome : ∀ q f f' a, f.image = image → (matchAt q).run handle f = .ok (some a, f') → Ends q a)
    {ps : List Int} {a : α} {f f' : OpenFile} (hf : f.image = image)
    (h : (firstMatch matchAt ps).run handle f = .ok (some a, f')) :
    ∃ pre p post, ps = pre ++ p :: post ∧ (∀ q ∈ pre, Passed q) ∧ Ends p a := by
  induction ps generalizing f with
  | nil => cases h
  | cons q ps ih =>
      rw [firstMatch, run_bind] at h
      cases hfirst : (matchAt q).run handle f with
      | error e =>
          rw [hfirst] at h
          cases h
      | ok res =>
          obtain ⟨r, f₁⟩ := res
          rw [hfirst, ok_bind] at h
          cases r with
          | some b =>
              obtain ⟨hb, _⟩ := Prod.mk.inj (Except.ok.inj h)
              obtain rfl := Option.some.inj hb
              exact ⟨[], q, ps, rfl, by simp, hsome q f f₁ b hf hfirst⟩
          | none =>
              obtain ⟨hf₁, hq⟩ := hnone q f f₁ hf hfirst
              obtain ⟨pre, p, post, rfl, hpre, hp⟩ := ih hf₁ h
              refine ⟨q :: pre, p, post, rfl, ?_, hp⟩
              intro q' hq'
              rcases List.mem_cons.mp hq' with rfl | hq'
              · exact hq
              · exact hpre q' hq'

end HashTableReader

open HashTableReader

namespace DocTableReader

theorem only_matchDocID (docId : UInt64) (p : Int) : Only Reads (matchDocID docId p) := by
  apply (only_fseekVerified _).bind
  intro _
  apply (only_freadVerified (by decide)).bind
  intro bs
  apply Only.ite
  · apply (only_readChars _).bind
    intro name
    exact .pure _
  · exact .pure _

end DocTableReader

namespace IndexTableReader

def wordHeaderAt (image : FileImage) (p : Int) : WordPostingsHeader :=
  WordPostingsHeader.ofDisk (image.bytesAt p WordPostingsHeader.sizeof)

/-- The element at this place is one of the word. -/
structure Spells (image : FileImage) (word : Bytes) (p : Int) : Prop where
  header : image.Within p WordPostingsHeader.sizeof
  wordBytes : (wordHeaderAt image p).wordBytes = word.length
  room : p.toNat + WordPostingsHeader.sizeof + word.length ≤ image.length
  letters : image.slice (p.toNat + WordPostingsHeader.sizeof) word.length = word

/-- Where the docID table of an element of the word starts. -/
def tableAfter (word : Bytes) (p : Int) : Int := int32 (p + WordPostingsHeader.sizeof + word.length)

theorem wordBytes_le (image : FileImage) (p : Int) : (wordHeaderAt image p).wordBytes ≤ 32767 := by
  apply BigEndian.signed_two_le
  rw [List.length_take, FileImage.bytesAt, FileImage.length_slice]
  rfl

theorem only_matchWord (word : Bytes) (p : Int) : Only Reads (matchWord word p) := by
  apply (only_fseekVerified _).bind
  intro _
  apply (only_freadVerified (by decide)).bind
  intro bs
  apply Only.ite (.pure _)
  apply (only_readChars _).bind
  intro chars
  apply Only.ite
  · apply (only_new _).bind
    intro reader
    exact .pure _
  · exact .pure _

/-- The part of the loop that follows the header of the element. -/
def matchHeader (word : Bytes) (offset : Int) (header : WordPostingsHeader) : FileProgram (Option HashTableReader) := do
  if header.wordBytes ≠ toInt word.length then return none
  let chars ← readChars header.wordBytes.toNat
  if word = chars then
    let reader ← HashTableReader.new (int32 (offset + WordPostingsHeader.sizeof + header.wordBytes))
    return some reader
  else return none

theorem run_matchWord (word : Bytes) (p : Int) (f : OpenFile) :
    (matchWord word p).run handle f = if f.image.Within p WordPostingsHeader.sizeof then
      (matchHeader word p (wordHeaderAt f.image p)).run handle { f with pos := p.toNat + WordPostingsHeader.sizeof }
    else .error .verify333 :=
  run_seekRead (by decide) (fun bs => matchHeader word p (WordPostingsHeader.ofDisk bs)) f

theorem matchHeader_some {word : Bytes} {p : Int} {header : WordPostingsHeader} (hle : header.wordBytes ≤ 32767)
    {f f' : OpenFile} {r : HashTableReader} (h : (matchHeader word p header).run handle f = .ok (some r, f')) :
    header.wordBytes = word.length ∧ (word.length = 0 ∨ f.pos + word.length ≤ f.image.length) ∧
      f.image.slice f.pos word.length = word ∧ HasTable f.image (tableAfter word p) ∧
      r = tableReader f.image (tableAfter word p) := by
  rw [matchHeader] at h
  split at h
  · cases h
  · next hsame =>
    rw [not_not] at hsame
    rw [run_bind, run_readChars] at h
    split at h
    · next hroom =>
      rw [ok_bind] at h
      simp only at h
      split at h
      · next hword =>
        have hlen := congrArg List.length hword
        rw [FileImage.length_slice] at hlen
        have hbytes : header.wordBytes = word.length := by
          rw [hsame, toInt_of_lt (by omega)]
        rw [← hlen] at hroom hword
        rw [hbytes, ← tableAfter, run_bind, run_new] at h
        split at h
        · next hhas =>
          obtain ⟨hr, _⟩ := Prod.mk.inj (Except.ok.inj h)
          exact ⟨hbytes, hroom, hword.symm, hhas, (Option.some.inj hr).symm⟩
        · cases h
      · cases h
    · cases h

theorem matchWord_some {word : Bytes} {p : Int} {f f' : OpenFile} {r : HashTableReader}
    (h : (matchWord word p).run handle f = .ok (some r, f')) :
    Spells f.image word p ∧ HasTable f.image (tableAfter word p) ∧ r = tableReader f.image (tableAfter word p) := by
  rw [run_matchWord] at h
  split at h
  · next hin =>
    obtain ⟨hbytes, hroom, hletters, hhas, hr⟩ := matchHeader_some (wordBytes_le f.image p) h
    refine ⟨⟨hin, hbytes, ?_, hletters⟩, hhas, hr⟩
    rcases hroom with hzero | hroom
    · have hend := hin.2
      omega
    · exact hroom
  · cases h

/-- The element at this place is one of another word. -/
structure Differs (image : FileImage) (word : Bytes) (p : Int) : Prop where
  header : image.Within p WordPostingsHeader.sizeof
  letters : (wordHeaderAt image p).wordBytes = toInt word.length →
    ((wordHeaderAt image p).wordBytes.toNat = 0 ∨
      p.toNat + WordPostingsHeader.sizeof + (wordHeaderAt image p).wordBytes.toNat ≤ image.length) ∧
    word ≠ image.slice (p.toNat + WordPostingsHeader.sizeof) (wordHeaderAt image p).wordBytes.toNat

theorem Differs.matchWord {image : FileImage} {word : Bytes} {p : Int} (h : Differs image word p) :
    Returns image (matchWord word p) none := by
  intro pos linked
  by_cases hsame : (wordHeaderAt image p).wordBytes = toInt word.length
  · obtain ⟨hroom, hne⟩ := h.letters hsame
    refine ⟨p.toNat + WordPostingsHeader.sizeof + (wordHeaderAt image p).wordBytes.toNat, ?_⟩
    rw [run_matchWord, if_pos h.header, matchHeader, if_neg (not_not.mpr hsame), run_bind, run_readChars,
      if_pos hroom, ok_bind]
    simp only
    rw [if_neg hne, run_pure]
  · refine ⟨p.toNat + WordPostingsHeader.sizeof, ?_⟩
    rw [run_matchWord, if_pos h.header, matchHeader, if_pos hsame, run_pure]

theorem matchWord_none {word : Bytes} {p : Int} {f f' : OpenFile}
    (h : (matchWord word p).run handle f = .ok (none, f')) : Differs f.image word p := by
  rw [run_matchWord] at h
  split at h
  · next hin =>
    refine ⟨hin, ?_⟩
    intro hsame
    rw [matchHeader, if_neg (not_not.mpr hsame), run_bind, run_readChars] at h
    split at h
    · next hroom =>
      rw [ok_bind] at h
      simp only at h
      split at h
      · rw [run_bind, run_new] at h
        split at h
        · cases (Prod.mk.inj (Except.ok.inj h)).1
        · cases h
      · next hne => exact ⟨hroom, hne⟩
    · cases h
  · cases h

theorem Spells.matchWord {image : FileImage} {word : Bytes} {p : Int} (h : Spells image word p)
    (htable : HasTable image (tableAfter word p)) :
    Returns image (matchWord word p) (some (tableReader image (tableAfter word p))) := by
  intro pos linked
  have hle := wordBytes_le image p
  have hbytes := h.wordBytes
  have hlen : toInt word.length = (word.length : Int) := toInt_of_lt (by omega)
  refine ⟨(tableAfter word p).toNat + BucketListHeader.sizeof, ?_⟩
  rw [run_matchWord, if_pos h.header, matchHeader, if_neg (by rw [hlen, hbytes]; exact not_not.mpr rfl), hbytes,
    Int.toNat_natCast, run_bind, run_readChars, if_pos (.inr h.room), ok_bind]
  simp only
  rw [if_pos h.letters.symm, ← tableAfter, run_bind, run_new, if_pos htable]
  rfl

end IndexTableReader

end SearchEngine
