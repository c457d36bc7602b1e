import SearchEngine.HashTableReader
import SearchEngine.IndexLayout

namespace SearchEngine

open FileProgram Layout Program OpenFile

theorem FileProgram.Returns.bind {α β : Type} {image : FileImage} {x : FileProgram α} {f : α → FileProgram β} {a : α}
    {b : β} (hx : Returns image x a) (hf : Returns image (f a) b) : Returns image (x >>= f) b := by
  intro pos linked
  obtain ⟨pos₁, h₁⟩ := hx pos linked
  obtain ⟨pos₂, h₂⟩ := hf pos₁ linked
  exact ⟨pos₂, by rw [run_bind, h₁, ok_bind, h₂]⟩

theorem FileProgram.Returns.unique {α : Type} {image : FileImage} {x : FileProgram α} {a b : α} (ha : Returns image x a)
    (hb : Returns image x b) : a = b := by
  obtain ⟨_, hrun⟩ := ha 0 true
  obtain ⟨_, hrun'⟩ := hb 0 true
  exact (Prod.mk.inj (Except.ok.inj (hrun.symm.trans hrun'))).1

theorem FileProgram.Returns.pure {α : Type} (image : FileImage) (a : α) : Returns image (Pure.pure a) a :=
  fun pos _ => ⟨pos, rfl⟩

namespace HashTableReader

variable {V α : Type} {F : ElementFormat V} {image : FileImage}

/-- The image has the table at this offset, where no position overflows. -/
structure TableAt (F : ElementFormat V) (image : FileImage) (off : Nat) (t : HashTable V) : Prop where
  holds : image.Holds off (F.tableBytes off t)
  fits : off + F.tableSize t < 2 ^ 31

def readerAt (off : Nat) (t : HashTable V) : HashTableReader := ⟨off, t.numBuckets⟩

/-- Where the elements of a chain start when the first of them is at p. -/
def positions (F : ElementFormat V) : Nat → List (HTKeyValue V) → List Int
  | _, [] => []
  | p, kv :: kvs => (p : Int) :: positions F (p + F.size kv) kvs

theorem new_returns {off : Nat} {t : HashTable V} (ht : TableAt F image off t) :
    Returns image (new off) (readerAt off t) := by
  intro pos linked
  have hsize := F.tableSize_buckets t
  have hfits := ht.fits
  have hheader := (FileImage.holds_append.mp ht.holds).1
  have hread := run_freadVerified (f := ⟨image, off, linked⟩) hheader (BucketListHeader.length_toDisk _) (by decide)
  refine ⟨off + 4, ?_⟩
  simp only [new, BucketListHeader.sizeof, run_bind, run_fseekVerified (Int.natCast_nonneg off), ok_bind,
    Int.toNat_natCast, hread, run_pure, BucketListHeader.ofDisk_toDisk]
  rw [int32_of_lt (Int.natCast_nonneg _) (by omega)]
  rfl

theorem readPositions_run (kvs : List (HTKeyValue V)) (p pos : Nat) (linked : Bool)
    (h : image.Holds pos (layout F.size ElementFormat.positionRecord p kvs))
    (hfit : p + total F.size kvs < 2 ^ 31) :
    (readPositions kvs.length).run handle ⟨image, pos, linked⟩ =
      .ok (positions F p kvs, ⟨image, pos + 4 * kvs.length, linked⟩) := by
  induction kvs generalizing p pos with
  | nil => rfl
  | cons kv kvs ih =>
      rw [total_cons] at hfit
      rw [layout, FileImage.holds_append, ElementFormat.positionRecord] at h
      have hread := run_freadVerified (f := ⟨image, pos, linked⟩) h.1 (ElementPositionRecord.length_toDisk _)
        (by decide)
      have hrest := ih (p + F.size kv) (pos + 4) h.2 (by omega)
      simp only [List.length_cons, readPositions, ElementPositionRecord.sizeof, run_bind, hread, ok_bind, hrest,
        run_pure, ElementPositionRecord.ofDisk_toDisk, positions, int32_of_lt (Int.natCast_nonneg p) (by omega)]
      congr 3
      omega

section

variable {off : Nat} {t : HashTable V}

def bucketPos (F : ElementFormat V) (off : Nat) (t : HashTable V) (i : Nat) : Nat :=
  off + 4 + 8 * t.numBuckets + total F.bucketSize (t.buckets.take i)

theorem TableAt.bucket (ht : TableAt F image off t) {i : Nat} {li : LinkedList (HTKeyValue V)}
    (hi : t.buckets[i]? = some li) :
    image.Holds (off + 4 + 8 * i) (BucketRecord.mk li.numElements (bucketPos F off t i)).toDisk ∧
      image.Holds (bucketPos F off t i) (F.bucketBytes (bucketPos F off t i) li) ∧
      bucketPos F off t i + F.bucketSize li < 2 ^ 31 := by
  have h := ht.holds
  rw [ElementFormat.tableBytes, FileImage.holds_append, FileImage.holds_append, BucketListHeader.length_toDisk,
    F.length_bucketRecords, t.size] at h
  obtain ⟨_, hrecords, hbuckets⟩ := h
  have hlt := (List.getElem?_eq_some_iff.mp hi).1
  have hrecord : image.Holds (off + 4 + total (fun _ => 8) (t.buckets.take i)) _ :=
    holds_layout hrecords hi fun _ _ _ => BucketRecord.length_toDisk _
  have hbucket := holds_layout hbuckets hi fun li _ p => F.length_bucketBytes li p
  rw [total_const, List.length_take, Nat.min_eq_left (by omega)] at hrecord
  refine ⟨hrecord, hbucket, ?_⟩
  have hle := total_take_add_le F.bucketSize hi
  have hsize := F.tableSize_buckets t
  have hfits := ht.fits
  rw [bucketPos]
  omega

theorem getElem?_chain (t : HashTable V) (key : UInt64) :
    t.buckets[t.hashKeyToBucketNum key]? = some (t.chain key) := by
  have hlt := t.bucket_lt key
  rw [HashTable.chain, HashTable.chainAt, List.getD_eq_getElem?_getD, List.getElem?_eq_getElem hlt]
  rfl

theorem bucketNum_eq (ht : TableAt F image off t) (key : UInt64) :
    (readerAt off t).bucketNum key = .ok (t.hashKeyToBucketNum key) := by
  have hsize := F.tableSize_buckets t
  have hfits := ht.fits
  have hpos := t.pos
  have hmod := Nat.mod_lt key.toNat hpos
  have hlow : (t.numBuckets : Int) % 2 ^ 64 = t.numBuckets := Int.emod_eq_of_lt (by omega) (by omega)
  rw [bucketNum, readerAt, if_neg (by simp only; omega), hlow, HashTable.hashKeyToBucketNum, ← Int.natCast_emod,
    int32_of_lt (by omega) (by omega)]

def chainPos (F : ElementFormat V) (off : Nat) (t : HashTable V) (key : UInt64) : Nat :=
  bucketPos F off t (t.hashKeyToBucketNum key) + 4 * (t.chain key).numElements

theorem lookupElementPositions_returns (ht : TableAt F image off t) (key : UInt64) :
    Returns image ((readerAt off t).lookupElementPositions key)
      (positions F (chainPos F off t key) (t.chain key).payloads) := by
  intro pos linked
  obtain ⟨hrecord, hbucket, hfit⟩ := ht.bucket (getElem?_chain t key)
  have hlt := t.bucket_lt key
  have hsize : F.bucketSize (t.chain key) =
      4 * (t.chain key).numElements + total F.size (t.chain key).payloads := rfl
  have hbase : off + 4 + 8 * t.numBuckets ≤ bucketPos F off t (t.hashKeyToBucketNum key) := Nat.le_add_right _ _
  rw [t.size] at hlt
  rw [ElementFormat.bucketBytes, FileImage.holds_append] at hbucket
  have hrec : int32 ((readerAt off t).offset + BucketListHeader.sizeof +
      BucketRecord.sizeof * (t.hashKeyToBucketNum key : Int)) =
        ((off + 4 + 8 * t.hashKeyToBucketNum key : Nat) : Int) := by
    rw [BucketListHeader.sizeof, BucketRecord.sizeof, readerAt, int32_of_lt] <;> simp only <;> omega
  have hread := run_freadVerified (f := ⟨image, _, linked⟩) hrecord (BucketRecord.length_toDisk _) (by decide)
  have hloop := readPositions_run (t.chain key).payloads (chainPos F off t key) _ linked hbucket.1
    (by rw [chainPos]; omega)
  rw [LinkedList.length_payloads] at hloop
  refine ⟨bucketPos F off t (t.hashKeyToBucketNum key) + 4 * (t.chain key).numElements, ?_⟩
  simp only [lookupElementPositions, bucketNum_eq ht, run_bind, run_ofRun_ok, ok_bind, hrec,
    run_fseekVerified (Int.natCast_nonneg _), Int.toNat_natCast]
  simp only [BucketRecord.sizeof, hread, ok_bind, BucketRecord.ofDisk_toDisk]
  rw [int32_of_lt (Int.natCast_nonneg _) (by omega), int32_of_lt (Int.natCast_nonneg _) (by omega)]
  simp only [run_fseekVerified (Int.natCast_nonneg _), Int.toNat_natCast, ok_bind]
  exact hloop

theorem mem_pairs_of_chain {key : UInt64} {kv : HTKeyValue V} (h : kv ∈ (t.chain key).payloads) : kv ∈ t.pairs := by
  apply List.mem_flatMap.mpr
  exact ⟨t.chain key, List.mem_of_getElem? (getElem?_chain t key), h⟩

/-- A search through a chain, when each element decides by itself: the first
that is found. -/
theorem firstMatch_first {matchAt : Int → FileProgram (Option α)} {R : HTKeyValue V → Option α → Prop}
    (kvs : List (HTKeyValue V)) (p : Nat) (h : image.Holds p (layout F.size F.encode p kvs))
    (hfit : p + total F.size kvs < 2 ^ 31)
    (hmatch : ∀ kv ∈ kvs, ∀ q : Nat, image.Holds q (F.encode q kv) → q + F.size kv < 2 ^ 31 →
      ∃ r, Returns image (matchAt q) r ∧ R kv r) :
    ∃ r, Returns image (firstMatch matchAt (positions F p kvs)) r ∧
      match r with
      | none => ∀ kv ∈ kvs, R kv none
      | some a => ∃ pre kv post, kvs = pre ++ kv :: post ∧ (∀ kv' ∈ pre, R kv' none) ∧ R kv (some a) := by
  induction kvs generalizing p with
  | nil => exact ⟨none, .pure image none, by simp⟩
  | cons kv kvs ih =>
      rw [total_cons] at hfit
      rw [layout, FileImage.holds_append, F.length_encode] at h
      obtain ⟨r, hr, hR⟩ := hmatch kv (by simp) p h.1 (by omega)
      cases r with
      | some a => exact ⟨some a, hr.bind (.pure image (some a)), [], kv, kvs, rfl, by simp, hR⟩
      | none =>
          obtain ⟨r, hrest, hspec⟩ := ih (p + F.size kv) h.2 (by omega) fun kv' hkv' => hmatch kv' (by simp [hkv'])
          refine ⟨r, hr.bind hrest, ?_⟩
          cases r with
          | none => simpa [hR] using hspec
          | some a =>
              obtain ⟨pre, kv', post, rfl, hpre, hR'⟩ := hspec
              exact ⟨kv :: pre, kv', post, rfl, by simpa [hR] using hpre, hR'⟩

theorem lookup_first {matchAt : Int → FileProgram (Option α)} {R : HTKeyValue V → Option α → Prop}
    (ht : TableAt F image off t) (key : UInt64)
    (hmatch : ∀ kv ∈ (t.chain key).payloads, ∀ q : Nat, image.Holds q (F.encode q kv) → q + F.size kv < 2 ^ 31 →
      ∃ r, Returns image (matchAt q) r ∧ R kv r) :
    ∃ r, Returns image (do
        let elements ← (readerAt off t).lookupElementPositions key
        firstMatch matchAt elements) r ∧
      match r with
      | none => ∀ kv ∈ (t.chain key).payloads, R kv none
      | some a => ∃ pre kv post, (t.chain key).payloads = pre ++ kv :: post ∧ (∀ kv' ∈ pre, R kv' none) ∧
          R kv (some a) := by
  obtain ⟨_, hbucket, hfit⟩ := ht.bucket (getElem?_chain t key)
  have hsize : F.bucketSize (t.chain key) =
      4 * (t.chain key).numElements + total F.size (t.chain key).payloads := rfl
  rw [ElementFormat.bucketBytes, FileImage.holds_append, F.length_positionRecords,
    LinkedList.length_payloads] at hbucket
  obtain ⟨r, hr, hspec⟩ := firstMatch_first (t.chain key).payloads (chainPos F off t key) hbucket.2
    (by rw [chainPos]; omega) hmatch
  exact ⟨r, (lookupElementPositions_returns ht key).bind hr, hspec⟩

theorem lookup_returns {matchAt : Int → FileProgram (Option α)} {R : HTKeyValue V → Option α → Prop}
    (ht : TableAt F image off t) (key : UInt64)
    (hmatch : ∀ kv ∈ (t.chain key).payloads, ∀ q : Nat, image.Holds q (F.encode q kv) → q + F.size kv < 2 ^ 31 →
      ∃ r, Returns image (matchAt q) r ∧ R kv r) :
    ∃ r, Returns image (do
        let elements ← (readerAt off t).lookupElementPositions key
        firstMatch matchAt elements) r ∧
      match r with
      | none => ∀ kv ∈ (t.chain key).payloads, R kv none
      | some a => ∃ kv ∈ (t.chain key).payloads, R kv (some a) := by
  obtain ⟨r, hr, hspec⟩ := lookup_first ht key hmatch
  refine ⟨r, hr, ?_⟩
  cases r with
  | none => exact hspec
  | some a =>
      obtain ⟨pre, kv, post, hsplit, _, hR⟩ := hspec
      exact ⟨kv, by simp [hsplit], hR⟩

/-- The lookups by key, when an element is read back as a function of its
value. -/
theorem lookup_key_returns (matchAt : Int → FileProgram (Option α)) (g : V → α) (ht : TableAt F image off t)
    (key : UInt64)
    (hmatch : ∀ kv ∈ t.pairs, ∀ q : Nat, image.Holds q (F.encode q kv) → q + F.size kv < 2 ^ 31 →
      Returns image (matchAt q) (if kv.key = key then some (g kv.value) else none)) :
    Returns image (do
        let elements ← (readerAt off t).lookupElementPositions key
        firstMatch matchAt elements) ((t.lookup key).map g) := by
  obtain ⟨r, hr, hspec⟩ := lookup_returns
    (R := fun kv r => r = if kv.key = key then some (g kv.value) else none) ht key
    fun kv hkv q hq hfit => ⟨_, hmatch kv (mem_pairs_of_chain hkv) q hq hfit, rfl⟩
  cases r with
  | none =>
      have hnone : t.lookup key = none := by
        rw [HashTable.lookup_eq_none]
        intro hmem
        obtain ⟨kv, hkv, rfl⟩ := List.mem_map.mp hmem
        simpa using hspec kv hkv
      rw [hnone]
      exact hr
  | some a =>
      obtain ⟨kv, hkv, ha⟩ := hspec
      split at ha
      · next hk =>
        subst hk
        rw [HashTable.lookup_eq_some.mpr hkv, Option.map_some, ← ha]
        exact hr
      · cases ha

end

end HashTableReader

end SearchEngine
