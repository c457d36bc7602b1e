import SearchEngine.ReaderSafety

/-! The elements that are stored in the tables of a file of any content, and
how they are looked up. -/

namespace SearchEngine

open FileProgram Program OpenFile

namespace HashTableReader

variable {α : Type} {image : FileImage} {off : Int}

def bucketAt (image : FileImage) (off i : Int) : BucketRecord :=
  recordAt image (off + BucketListHeader.sizeof + BucketRecord.sizeof * i)

/-- The positions in the chains of all buckets of the table at this offset. -/
def elements (image : FileImage) (off : Int) : List Int :=
  (List.range (tableReader image off).numBuckets.toNat).flatMap fun i => chainOf image (bucketAt image off i)

theorem mem_elements {p : Int} : p ∈ elements image off ↔
    ∃ i < (tableReader image off).numBuckets.toNat, p ∈ chainOf image (bucketAt image off i) := by
  simp [elements]

/-- A table that is in the file with its records and chains, and of whose
elements something holds that can depend on their bucket. -/
structure Sound (image : FileImage) (off : Int) (P : Nat → Int → Prop) : Prop where
  header : HasTable image off
  record : ∀ i < (tableReader image off).numBuckets.toNat,
    image.Within (off + BucketListHeader.sizeof + BucketRecord.sizeof * i) BucketRecord.sizeof ∧
      off + BucketListHeader.sizeof + BucketRecord.sizeof * i ≤ 2147483647
  chain : ∀ i < (tableReader image off).numBuckets.toNat, chainOf image (bucketAt image off i) ≠ [] →
    HasChain image (bucketAt image off i)
  element : ∀ i < (tableReader image off).numBuckets.toNat, ∀ p ∈ chainOf image (bucketAt image off i), P i p

theorem numBuckets_le (image : FileImage) (off : Int) : (tableReader image off).numBuckets ≤ 2147483647 := by
  have hlt := Int.bmod_lt (x := (BigEndian.value (image.bytesAt off 4) : Int)) (m := 256 ^ 4) (by decide)
  have hlen : (image.bytesAt off 4).length = 4 := FileImage.length_slice _ _ _
  change BigEndian.signed (image.bytesAt off 4) ≤ 2147483647
  rw [BigEndian.signed, hlen]
  omega

theorem bucketNum_of_pos {r : HashTableReader} (hpos : 0 < r.numBuckets) (hle : r.numBuckets ≤ 2147483647)
    (key : UInt64) : r.bucketNum key = .ok ((key.toNat % r.numBuckets.toNat : Nat) : Int) := by
  obtain ⟨n, hn⟩ := Int.eq_ofNat_of_zero_le (Int.le_of_lt hpos)
  rw [hn] at hpos hle ⊢
  have hlow : (n : Int) % 2 ^ 64 = n := Int.emod_eq_of_lt (by omega) (by omega)
  have hlt := Nat.mod_lt key.toNat (show 0 < n by omega)
  have hmod : key.toNat % n < 2 ^ 31 := by omega
  rw [bucketNum, hn, if_neg (by omega), hlow, ← Int.natCast_emod, int32_of_lt (by omega) (by omega), Int.toNat_natCast]

namespace Sound

variable {P : Nat → Int → Prop}

theorem recordOffset (h : Sound image off P) {i : Nat} (hi : i < (tableReader image off).numBuckets.toNat) :
    (tableReader image off).recordOffset i = off + BucketListHeader.sizeof + BucketRecord.sizeof * i := by
  obtain ⟨⟨hnonneg, _⟩, hle⟩ := h.record i hi
  exact int32_of_lt hnonneg (Int.lt_of_le_of_lt hle (by decide))

theorem bucketOf (h : Sound image off P) {key : UInt64}
    (hi : key.toNat % (tableReader image off).numBuckets.toNat < (tableReader image off).numBuckets.toNat)
    (hne : chainOf image (bucketAt image off (key.toNat % (tableReader image off).numBuckets.toNat : Nat)) ≠ []) :
    BucketOf image (tableReader image off) key (key.toNat % (tableReader image off).numBuckets.toNat : Nat) := by
  have hnum := bucketNum_of_pos (r := tableReader image off) (by omega) (numBuckets_le image off) key
  have hrecord := (h.record _ hi).1
  have hchain := h.chain _ hi hne
  rw [bucketAt, ← h.recordOffset hi] at hchain
  rw [← h.recordOffset hi] at hrecord
  exact ⟨hnum, hrecord, hchain⟩

end Sound

theorem firstMatch_findSome {matchAt : Int → FileProgram (Option α)} {g : Int → Option α} {ps : List Int}
    (h : ∀ q ∈ ps, Returns image (matchAt q) (g q)) : Returns image (firstMatch matchAt ps) (ps.findSome? g) := by
  induction ps with
  | nil => exact .pure image none
  | cons q ps ih =>
      have hfirst := h q (by simp)
      have hrest := ih fun q' hq' => h q' (by simp [hq'])
      rw [List.findSome?_cons]
      cases hg : g q with
      | none =>
          rw [hg] at hfirst
          exact hfirst.bind hrest
      | some a =>
          rw [hg] at hfirst
          exact hfirst.bind (.pure image (some a))

/-- An element is found that is in the bucket of its key, or another before it
that matches too. -/
theorem Sound.lookup {P : Nat → Int → Prop} (h : Sound image off P) {key : UInt64} {p : Int} {i : Nat}
    (hi : i < (tableReader image off).numBuckets.toNat)
    (hkey : key.toNat % (tableReader image off).numBuckets.toNat = i) (hp : p ∈ chainOf image (bucketAt image off i))
    {matchAt : Int → FileProgram (Option α)} {g : Int → Option α}
    (hmatch : ∀ q ∈ chainOf image (bucketAt image off i), Returns image (matchAt q) (g q)) (hfound : (g p).isSome) :
    ∃ q ∈ chainOf image (bucketAt image off i), ∃ a, g q = some a ∧ Returns image (do
      let elements ← (tableReader image off).lookupElementPositions key
      firstMatch matchAt elements) (some a) := by
  subst hkey
  have hps := (h.bucketOf hi (List.ne_nil_of_mem hp)).returns
  rw [h.recordOffset hi, ← bucketAt] at hps
  have hall := firstMatch_findSome hmatch
  cases hsome :
    (chainOf image (bucketAt image off (key.toNat % (tableReader image off).numBuckets.toNat : Nat))).findSome? g with
  | none =>
      rw [List.findSome?_eq_none_iff.mp hsome p hp] at hfound
      cases hfound
  | some a =>
      obtain ⟨q, hq, hgq⟩ := List.exists_of_findSome?_eq_some hsome
      rw [hsome] at hall
      exact ⟨q, hq, a, hgq, hps.bind hall⟩

/-- Elements under one key hold one content. -/
def Unambiguous {κ : Type} (ps : List Int) (keyAt : Int → κ) (contentAt : Int → α) : Prop :=
  ∀ p ∈ ps, ∀ q ∈ ps, keyAt p = keyAt q → contentAt p = contentAt q

/-- Where a lookup returns what some element has stored for the key, it
returns each element's own content if no two elements of one key differ. -/
theorem own_iff_unambiguous {κ : Type} {ps : List Int} {keyAt : Int → κ} {contentAt : Int → α}
    {lookup : κ → FileProgram (Option α)}
    (hlookup : ∀ p ∈ ps, ∃ q ∈ ps, keyAt q = keyAt p ∧ Returns image (lookup (keyAt p)) (some (contentAt q))) :
    (∀ p ∈ ps, Returns image (lookup (keyAt p)) (some (contentAt p))) ↔ Unambiguous ps keyAt contentAt := by
  constructor
  · intro hown p hp q hq hkey
    have hp' := hown p hp
    rw [hkey] at hp'
    exact Option.some.inj (hp'.unique (hown q hq))
  · intro hone p hp
    obtain ⟨q, hq, hkey, hret⟩ := hlookup p hp
    rwa [hone q hq p hp hkey] at hret

/-- The lookups by key, in a table where each element is in the bucket of its
key. -/
theorem Sound.lookup_key {Readable : Int → Prop} {keyAt : Int → UInt64} {contentAt : Int → α}
    {matchAt : UInt64 → Int → FileProgram (Option α)}
    (h : Sound image off fun i p => Readable p ∧ (keyAt p).toNat % (tableReader image off).numBuckets.toNat = i)
    (hmatch : ∀ key q, Readable q → Returns image (matchAt key q) (if keyAt q = key then some (contentAt q) else none))
    {p : Int} (hp : p ∈ elements image off) :
    ∃ q ∈ elements image off, keyAt q = keyAt p ∧ Returns image (do
      let elements ← (tableReader image off).lookupElementPositions (keyAt p)
      firstMatch (matchAt (keyAt p)) elements) (some (contentAt q)) := by
  obtain ⟨i, hi, hchain⟩ := mem_elements.mp hp
  obtain ⟨q, hq, a, hgq, hlookup⟩ := h.lookup hi (h.element i hi p hchain).2 hchain
    (fun q hq => hmatch (keyAt p) q (h.element i hi q hq).1) (by simp)
  split at hgq
  · next hkey =>
    obtain rfl := Option.some.inj hgq
    exact ⟨q, mem_elements.mpr ⟨i, hi, hq⟩, hkey, hlookup⟩
  · cases hgq

end HashTableReader

open HashTableReader

namespace DocTableReader

variable {image : FileImage} {off p : Int}

def elementAt (image : FileImage) (p : Int) : DoctableElementHeader :=
  DoctableElementHeader.ofDisk (image.bytesAt p DoctableElementHeader.sizeof)

def nameAt (image : FileImage) (p : Int) : Bytes :=
  image.slice (p.toNat + DoctableElementHeader.sizeof) (elementAt image p).fileNameBytes.toNat

structure Readable (image : FileImage) (p : Int) : Prop where
  header : image.Within p DoctableElementHeader.sizeof
  room : (elementAt image p).fileNameBytes.toNat = 0 ∨
    p.toNat + DoctableElementHeader.sizeof + (elementAt image p).fileNameBytes.toNat ≤ image.length

theorem Readable.matchDocID (h : Readable image p) (docId : UInt64) :
    Returns image (matchDocID docId p) (if (elementAt image p).docId = docId then some (nameAt image p) else none) := by
  intro pos linked
  have hread (f : OpenFile) (hf : f.image = image) : (DocTableReader.matchDocID docId p).run handle f =
      (if (elementAt image p).docId = docId then do
        let name ← readChars (elementAt image p).fileNameBytes.toNat
        return some name
      else return none : FileProgram (Option Bytes)).run handle
        { f with pos := p.toNat + DoctableElementHeader.sizeof } := by
    subst hf
    rw [DocTableReader.matchDocID, run_seekRead (by decide), if_pos h.header]
    rfl
  rw [hread _ rfl]
  split
  · rw [run_bind, run_readChars, if_pos h.room, ok_bind, run_pure]
    exact ⟨_, rfl⟩
  · exact ⟨_, rfl⟩

/-- A table each of whose elements is readable and in the bucket of its
docID. -/
abbrev SoundTable (image : FileImage) (off : Int) : Prop := Sound image off fun i p =>
  Readable image p ∧ (elementAt image p).docId.toNat % (tableReader image off).numBuckets.toNat = i

theorem SoundTable.lookupDocID (h : SoundTable image off) (hp : p ∈ elements image off) :
    ∃ q ∈ elements image off, (elementAt image q).docId = (elementAt image p).docId ∧
      Returns image (lookupDocID (tableReader image off) (elementAt image p).docId) (some (nameAt image q)) :=
  h.lookup_key (fun docId _ hq => hq.matchDocID docId) hp

end DocTableReader

namespace DocIDTableReader

variable {image : FileImage} {off p : Int}

def elementAt (image : FileImage) (p : Int) : DocIDElementHeader :=
  DocIDElementHeader.ofDisk (image.bytesAt p DocIDElementHeader.sizeof)

def positionsAt (image : FileImage) (p : Int) : List UInt32 :=
  (List.range (elementAt image p).numPositions.toNat).map fun j =>
    (DocIDElementPosition.ofDisk (image.slice (p.toNat + DocIDElementHeader.sizeof + 4 * j) 4)).position

structure Readable (image : FileImage) (p : Int) : Prop where
  header : image.Within p DocIDElementHeader.sizeof
  room : (elementAt image p).numPositions.toNat = 0 ∨
    p.toNat + DocIDElementHeader.sizeof + 4 * (elementAt image p).numPositions.toNat ≤ image.length

theorem readPositionList_eq (n : Nat) :
    readPositionList n = readEach 4 (fun bs => (DocIDElementPosition.ofDisk bs).position) n := by
  induction n with
  | zero => rfl
  | succ n ih =>
      rw [readPositionList, ih]
      rfl

theorem Readable.matchDocID (h : Readable image p) (docId : UInt64) :
    Returns image (matchDocID docId p)
      (if (elementAt image p).docId = docId then some (positionsAt image p) else none) := by
  intro pos linked
  have hread (f : OpenFile) (hf : f.image = image) : (DocIDTableReader.matchDocID docId p).run handle f =
      (if (elementAt image p).docId = docId then do
        let positions ← readPositionList (elementAt image p).numPositions.toNat
        return some positions
      else return none : FileProgram (Option (List UInt32))).run handle
        { f with pos := p.toNat + DocIDElementHeader.sizeof } := by
    subst hf
    rw [DocIDTableReader.matchDocID, run_seekRead (by decide), if_pos h.header]
    rfl
  rw [hread _ rfl]
  split
  · rw [run_bind, readPositionList_eq, run_readEach (by decide), if_pos h.room, ok_bind, run_pure]
    exact ⟨_, rfl⟩
  · exact ⟨_, rfl⟩

abbrev SoundTable (image : FileImage) (off : Int) : Prop := Sound image off fun i p =>
  Readable image p ∧ (elementAt image p).docId.toNat % (tableReader image off).numBuckets.toNat = i

theorem SoundTable.lookupDocID (h : SoundTable image off) (hp : p ∈ elements image off) :
    ∃ q ∈ elements image off, (elementAt image q).docId = (elementAt image p).docId ∧
      Returns image (lookupDocID (tableReader image off) (elementAt image p).docId) (some (positionsAt image q)) :=
  h.lookup_key (fun docId _ hq => hq.matchDocID docId) hp

end DocIDTableReader

namespace IndexTableReader

variable {image : FileImage} {off p : Int}

def wordAt (image : FileImage) (p : Int) : Bytes :=
  image.slice (p.toNat + WordPostingsHeader.sizeof) (wordHeaderAt image p).wordBytes.toNat

/-- Where the docID table in an element starts. -/
def tableOf (image : FileImage) (p : Int) : Int := p + WordPostingsHeader.sizeof + (wordHeaderAt image p).wordBytes

structure Readable (image : FileImage) (p : Int) : Prop where
  header : image.Within p WordPostingsHeader.sizeof
  someLetter : 0 < (wordHeaderAt image p).wordBytes
  room : p.toNat + WordPostingsHeader.sizeof + (wordHeaderAt image p).wordBytes.toNat ≤ image.length
  fits : tableOf image p ≤ 2147483647
  table : DocIDTableReader.SoundTable image (tableOf image p)

theorem length_wordAt (image : FileImage) (p : Int) :
    (wordAt image p).length = (wordHeaderAt image p).wordBytes.toNat := FileImage.length_slice _ _ _

theorem Spells.wordAt_eq {word : Bytes} (h : Spells image word p) : wordAt image p = word := by
  rw [wordAt, h.wordBytes, Int.toNat_natCast, h.letters]

namespace Readable

theorem spells (h : Readable image p) : Spells image (wordAt image p) p := by
  have hpos := h.someLetter
  have hlen := length_wordAt image p
  constructor
  · exact h.header
  · omega
  · rw [hlen]
    exact h.room
  · rw [hlen]
    rfl

theorem tableAfter_eq (h : Readable image p) : tableAfter (wordAt image p) p = tableOf image p := by
  have hpos := h.someLetter
  have hfits := h.fits
  have hnonneg := h.header.1
  have hlen := length_wordAt image p
  have hsame : ((wordAt image p).length : Int) = (wordHeaderAt image p).wordBytes := by omega
  have hlow : 0 ≤ tableOf image p := by
    rw [tableOf]
    omega
  rw [tableAfter, hsame, ← tableOf, int32_of_lt hlow (Int.lt_of_le_of_lt hfits (by decide))]

theorem matchWord (h : Readable image p) (word : Bytes) : Returns image (matchWord word p)
    (if wordAt image p = word then some (tableReader image (tableOf image p)) else none) := by
  split
  · next hword =>
    have htable : HasTable image (tableAfter word p) := by
      rw [← hword, h.tableAfter_eq]
      exact h.table.header
    have hall := (hword ▸ h.spells).matchWord htable
    rwa [← hword, h.tableAfter_eq, hword] at hall
  · next hword =>
    apply Differs.matchWord
    refine ⟨h.header, ?_⟩
    intro _
    exact ⟨.inr h.room, Ne.symm hword⟩

end Readable

/-- A table all of whose elements are readable, in whatever bucket. -/
abbrev SoundTable (image : FileImage) (off : Int) : Prop := Sound image off fun _ p => Readable image p

/-- The word of this element is the word of an element in the bucket that its
hash leads to. -/
def Reachable (image : FileImage) (off p : Int) : Prop :=
  ∃ i, (tableReader image off).bucketNum (hashString (wordAt image p)) = .ok i ∧
    ∃ q ∈ chainOf image (bucketAt image off i), wordAt image q = wordAt image p

theorem SoundTable.lookupWord_iff (h : SoundTable image off) (hp : p ∈ elements image off) :
    (∃ q ∈ elements image off, wordAt image q = wordAt image p ∧
      Returns image (lookupWord (tableReader image off) (wordAt image p))
        (some (tableReader image (tableOf image q)))) ↔
      Reachable image off p := by
  obtain ⟨j, hj, _⟩ := mem_elements.mp hp
  have hpos : 0 < (tableReader image off).numBuckets.toNat := Nat.lt_of_le_of_lt (Nat.zero_le j) hj
  have hnum := bucketNum_of_pos (r := tableReader image off) (by omega) (numBuckets_le image off)
    (hashString (wordAt image p))
  have hlt := Nat.mod_lt (hashString (wordAt image p)).toNat hpos
  constructor
  · rintro ⟨_, _, _, hlookup⟩
    obtain ⟨_, hrun⟩ := hlookup 0 true
    obtain ⟨q, hleads, _, _⟩ := leadsTo_of_lookupWord hrun
    obtain ⟨i, pre, post, hbucket, hchain, _⟩ := hleads.first
    have hi := Except.ok.inj (hnum.symm.trans hbucket.num)
    refine ⟨i, hbucket.num, q, ?_, hleads.spells.wordAt_eq⟩
    rw [← hi] at hchain ⊢
    rw [h.recordOffset hlt, ← bucketAt] at hchain
    rw [hchain]
    simp
  · rintro ⟨i, hi, q, hq, hword⟩
    obtain rfl := Except.ok.inj (hnum.symm.trans hi)
    obtain ⟨q', hq', r, hgq, hlookup⟩ := h.lookup hlt rfl hq
      (fun q' hq' => (h.element _ hlt q' hq').matchWord (wordAt image p)) (by simp [hword])
    split at hgq
    · next hword' =>
      obtain rfl := Option.some.inj hgq
      exact ⟨q', mem_elements.mpr ⟨_, hlt, hq'⟩, hword', hlookup⟩
    · cases hgq

/-- Two elements of one word with one docID table are one element. -/
theorem Readable.eq_of_table {q : Int} (hp : Readable image p) (hq : Readable image q)
    (hword : wordAt image p = wordAt image q)
    (htable : tableReader image (tableOf image p) = tableReader image (tableOf image q)) : p = q := by
  have hoff : tableOf image p = tableOf image q := congrArg HashTableReader.offset htable
  have hlen := congrArg List.length hword
  have hp' := hp.someLetter
  have hq' := hq.someLetter
  rw [length_wordAt, length_wordAt] at hlen
  rw [tableOf, tableOf] at hoff
  omega

end IndexTableReader

end SearchEngine
