import SearchEngine.IndexChecker
import SearchEngine.IndexRoundTrip

/-! What the checker says of the tables of an index file. -/

namespace SearchEngine

open BigEndian FileProgram HashTableReader Layout Program OpenFile

variable {image : FileImage} {off : Nat}

theorem signed_nat32 {x : Nat} (h : x < 2 ^ 31) : signed (field32 x) = x := by
  rw [signed_field32, int32_of_lt (by omega) (by omega)]

namespace FileProgram

theorem run_freadAsserted_holds {f : OpenFile} {bytes : Bytes} {n : Nat} (h : f.image.Holds f.pos bytes)
    (hlen : bytes.length = n) (hn : n ≠ 0) :
    (freadAsserted n).run handle f = .ok (bytes, { f with pos := f.pos + n }) := by
  subst hlen
  rw [run_freadAsserted, if_pos (h.le_length (List.length_pos_iff.mp (Nat.pos_of_ne_zero hn))), h.slice]

theorem run_fseekAsserted_nat (p : Nat) (f : OpenFile) :
    (fseekAsserted p).run handle f = .ok ((), { f with pos := p }) := by
  rw [run_fseekAsserted, if_pos (Int.natCast_nonneg p), Int.toNat_natCast]

theorem run_addInt_of {a b c : Int} (hc : a + b = c) (hlow : -2147483648 ≤ c) (hhigh : c ≤ 2147483647) (f : OpenFile) :
    (addInt a b).run handle f = .ok (c, f) := by
  have hmax : (INT_MAX : Int) = 2147483647 := rfl
  rw [run_addInt_eq, if_pos (by omega), hc]

theorem run_mulInt_of {a b c : Int} (hc : a * b = c) (hlow : -2147483648 ≤ c) (hhigh : c ≤ 2147483647) (f : OpenFile) :
    (mulInt a b).run handle f = .ok (c, f) := by
  have hmax : (INT_MAX : Int) = 2147483647 := rfl
  rw [run_mulInt_eq, hc, if_pos (by omega)]

theorem run_readArray_holds {f : OpenFile} {bytes : Bytes} (h : f.image.Holds f.pos bytes) (hne : bytes ≠ []) :
    (readArray bytes.length).run handle f = .ok (bytes, { f with pos := f.pos + bytes.length }) := by
  have hpos := List.length_pos_iff.mpr hne
  rw [run_readArray, if_neg (by omega), if_neg (by omega), Int.toNat_natCast, if_pos (h.le_length hne), h.slice]

end FileProgram

theorem docIdMod_nat (docId : UInt64) {n : Nat} (hpos : 0 < n) (hlt : n < 2 ^ 31) :
    docIdMod docId n = .ok ((docId.toNat % n : Nat) : Int) := by
  have hlow : (n : Int) % 2 ^ 64 = n := Int.emod_eq_of_lt (by omega) (by omega)
  rw [docIdMod, if_neg (by omega), hlow, Int.natCast_emod]

theorem int64_of_lt {x : Int} (h : 0 ≤ x) (hlt : x < 2 ^ 63) : int64 x = x := by
  apply Int.bmod_eq_of_le_mul_two <;> omega

namespace DocTableChecker

theorem checkElement_returns {kv : HTKeyValue Bytes} (hne : kv.value ≠ []) (hle : kv.value.length ≤ 32767)
    (hascii : ∀ c ∈ kv.value, isascii c = true) {n i q : Nat} (hpos : 0 < n) (hlt : n < 2 ^ 31)
    (hbucket : kv.key.toNat % n = i) (h : image.Holds q (docFormat.encode q kv)) :
    Returns image (checkElement n q i) true := by
  intro pos linked
  obtain ⟨hheader, hname⟩ := FileImage.holds_append.mp h
  rw [DoctableElementHeader.length_toDisk] at hname
  rw [DoctableElementHeader.toDisk] at hheader
  obtain ⟨hid, hlen⟩ := FileImage.holds_append.mp hheader
  rw [length_field64] at hlen
  have hmod := Nat.mod_lt kv.key.toNat hpos
  have hreadId := run_freadAsserted_holds (f := ⟨image, q, linked⟩) hid (length_field64 _) (by decide)
  have hreadLen := run_freadAsserted_holds (f := ⟨image, q + 8, linked⟩) hlen (length_field16 _) (by decide)
  have hreadName := run_readArray_holds (f := ⟨image, q + 10, linked⟩) hname hne
  have hcount : signed (field16 kv.value.length) = kv.value.length := by
    rw [signed_field16, int16_of_lt (by omega) (by omega)]
  have hall : (kv.value.all fun c => checkEQ16 1 (if isascii c then 1 else 0)) = true := by
    rw [List.all_eq_true]
    intro c hc
    rw [hascii c hc]
    rfl
  have hsame : checkEQ32 i (int32 ((kv.key.toNat % n : Nat) : Int)) = true := by
    rw [int32_of_lt (by omega) (by omega), hbucket, checkEQ32, decide_eq_true rfl]
  refine ⟨q + 10 + kv.value.length, ?_⟩
  simp only [checkElement, run_bind, run_fseekAsserted_nat, ok_bind, hreadId, host64_field64, docIdMod_nat _ hpos hlt,
    run_ofRun_ok, hreadLen, hcount, hreadName, hall, hsame, run_pure, Bool.and_self]

end DocTableChecker

theorem fieldU32_eq (x : UInt32) : fieldU32 x = field32 x.toNat := by
  have hlt := x.toNat_lt
  have hmod : ((x.toNat : Int) % (256 ^ 4 : Nat)).toNat = x.toNat := by omega
  rw [field32, field, hmod, fieldU32]

namespace DocIDTableChecker

/-- The positions that the checker lets pass. -/
structure Ascending (ps : List UInt64) : Prop where
  sorted : ps.Pairwise (· < ·)
  small : ∀ p ∈ ps, p.toNat < 2 ^ 31

theorem signed_position {p : UInt64} (h : p.toNat < 2 ^ 31) :
    signed (DocIDElementPosition.mk p.toUInt32).toDisk = p.toNat := by
  have hcut : p.toUInt32.toNat = p.toNat := by
    rw [UInt64.toNat_toUInt32, Nat.mod_eq_of_lt (by omega)]
  rw [DocIDElementPosition.toDisk, fieldU32_eq, signed_field32, hcut, int32_of_lt (by omega) (by omega)]

theorem checkPositions_run {ps : List UInt64} (hps : Ascending ps) (prev : Option Int)
    (hprev : ∀ a ∈ prev, ∀ p ∈ ps, a < p.toNat) (pos : Nat) (linked : Bool)
    (h : image.Holds pos (positionsBytes ps)) :
    (checkPositions ps.length prev).run handle ⟨image, pos, linked⟩ =
      .ok (true, ⟨image, pos + 4 * ps.length, linked⟩) := by
  induction ps generalizing prev pos with
  | nil => rfl
  | cons p ps ih =>
      rw [positionsBytes, List.flatMap_cons, FileImage.holds_append, DocIDElementPosition.length_toDisk] at h
      have hread := run_freadAsserted_holds (f := ⟨image, pos, linked⟩) h.1 (DocIDElementPosition.length_toDisk _)
        (by decide)
      obtain ⟨hfirst, hsorted⟩ := List.pairwise_cons.mp hps.sorted
      have hrest := ih ⟨hsorted, fun q hq => hps.small q (by simp [hq])⟩ (some (p.toNat : Int)) (by
        intro a ha q hq
        obtain rfl := Option.some.inj ha
        have hlt := UInt64.lt_iff_toNat_lt.mp (hfirst q hq)
        omega) (pos + 4) h.2
      have hgood : (prev.all fun a => checkLT32 a p.toNat) = true := by
        cases prev with
        | none => rfl
        | some a => exact decide_eq_true (hprev a rfl p (by simp))
      simp only [List.length_cons, checkPositions, run_bind, hread, ok_bind, signed_position (hps.small p (by simp)),
        hrest, hgood, run_pure, Bool.and_self]
      congr 3
      omega

theorem checkElement_returns {kv : HTKeyValue Postings} (hps : Ascending kv.value.payloads)
    (hfew : kv.value.numElements < 1000000) {n i q : Nat} (hpos : 0 < n) (hlt : n < 2 ^ 31)
    (hbucket : kv.key.toNat % n = i) (h : image.Holds q (postingFormat.encode q kv)) :
    Returns image (checkElement n q i) true := by
  intro pos linked
  obtain ⟨hheader, hpositions⟩ := FileImage.holds_append.mp h
  rw [DocIDElementHeader.length_toDisk] at hpositions
  rw [DocIDElementHeader.toDisk] at hheader
  obtain ⟨hid, hlen⟩ := FileImage.holds_append.mp hheader
  rw [length_field64] at hlen
  have hmod := Nat.mod_lt kv.key.toNat hpos
  have hreadId := run_freadAsserted_holds (f := ⟨image, q, linked⟩) hid (length_field64 _) (by decide)
  have hreadLen := run_freadAsserted_holds (f := ⟨image, q + 8, linked⟩) hlen (length_field32 _) (by decide)
  have hloop := checkPositions_run hps none (by simp) (q + 12) linked hpositions
  rw [LinkedList.length_payloads] at hloop
  have hcount := signed_nat32 (x := kv.value.numElements) (by omega)
  have hsame : checkEQ64 i (int64 ((kv.key.toNat % n : Nat) : Int)) = true := by
    rw [int64_of_lt (by omega) (by omega), hbucket, checkEQ64, decide_eq_true rfl]
  have hless : checkLT32 kv.value.numElements 1000000 = true := by
    rw [checkLT32, decide_eq_true (by omega)]
  refine ⟨q + 12 + 4 * kv.value.numElements, ?_⟩
  simp only [checkElement, run_bind, run_fseekAsserted_nat, ok_bind, hreadId, host64_field64, docIdMod_nat _ hpos hlt,
    run_ofRun_ok, hreadLen, hcount, Int.toNat_natCast, hloop, hsame, hless, run_pure, Bool.and_self]

end DocIDTableChecker

namespace HashTableChecker

variable {V : Type} {F : ElementFormat V}

theorem checkChain_returns (checkElement : Int → FileProgram Bool) {tableEnd : Nat} (hend : tableEnd + 1 < 2 ^ 31)
    (kvs : List (HTKeyValue V)) (rp j p : Nat)
    (hrecords : image.Holds (rp + 4 * j) (layout F.size ElementFormat.positionRecord p kvs))
    (helements : image.Holds p (layout F.size F.encode p kvs)) (hfit : p + total F.size kvs ≤ tableEnd)
    (hroom : rp + 4 * (j + kvs.length) ≤ tableEnd)
    (helem : ∀ kv ∈ kvs, ∀ q : Nat, image.Holds q (F.encode q kv) → q + F.size kv ≤ tableEnd →
      Returns image (checkElement q) true) :
    Returns image (checkChain checkElement tableEnd rp kvs.length j) true := by
  induction kvs generalizing j p with
  | nil => exact .pure image true
  | cons kv kvs ih =>
      intro pos linked
      rw [total_cons] at hfit
      rw [List.length_cons] at hroom
      rw [layout, FileImage.holds_append, ElementFormat.positionRecord, ElementPositionRecord.length_toDisk] at hrecords
      rw [layout, FileImage.holds_append, F.length_encode] at helements
      have hread := run_freadAsserted_holds (f := ⟨image, rp + 4 * j, linked⟩) hrecords.1
        (ElementPositionRecord.length_toDisk _) (by decide)
      have hvalue : signed (ElementPositionRecord.mk p).toDisk = p := signed_nat32 (by omega)
      have hin : checkLT32 p ((tableEnd : Int) + 1) = true := by
        rw [checkLT32, decide_eq_true (by omega)]
      obtain ⟨pos₁, hgood⟩ := helem kv (by simp) p helements.1 (by omega) (rp + 4 * j + 4) linked
      obtain ⟨pos₂, hrest⟩ := ih (j + 1) (p + F.size kv) (by rw [Nat.mul_succ]; exact hrecords.2) helements.2 (by omega)
        (by omega) (fun kv' hkv' => helem kv' (by simp [hkv'])) pos₁ linked
      have hmul := run_mulInt_of (a := j) (b := kElementPositionSize) (c := ((4 * j : Nat) : Int))
        (by rw [kElementPositionSize]; omega) (by omega) (by omega)
      have hadd := run_addInt_of (a := rp) (b := ((4 * j : Nat) : Int)) (c := ((rp + 4 * j : Nat) : Int)) (by omega)
        (by omega) (by omega)
      have hlast := run_addInt_of (a := tableEnd) (b := 1) rfl (by omega) (by omega)
      refine ⟨pos₂, ?_⟩
      simp only [List.length_cons, checkChain, run_bind, hmul, ok_bind, hadd, run_fseekAsserted_nat, hread, hvalue,
        hlast, hin, hgood, hrest, run_pure, Bool.and_self]

/-- The first record tells where the buckets start, if it is read at all. -/
theorem checkOrder_returns (len : Nat) {c : HashTableChecker} {n k start p : Nat} {prev : Option Int}
    (hoff : c.offset = off) (hstart : start = off + 4 + 8 * n) (hsmall : start < 2 ^ 31)
    (hfirst : image.Holds (off + 4) (BucketRecord.mk k start).toDisk)
    (hnone : prev = none → p = start) (hsome : ∀ a ∈ prev, a < p) {size : Nat} (hempty : len = 0 → size = 0)
    (hpos : 0 < len → 0 < size) :
    ∃ prev', Returns image (c.checkOrder n len p prev) (true, prev') ∧ (prev' = none → p + size = start) ∧
      ∀ a ∈ prev', a < ((p + size : Nat) : Int) := by
  by_cases hlen : 0 < len
  · have hsize := hpos hlen
    have hcond : (0 : Int) < len := by omega
    cases prev with
    | some a =>
        have hlt := hsome a rfl
        refine ⟨some p, ?_, by simp, ?_⟩
        · rw [checkOrder, if_pos hcond]
          simp only [checkLT32, decide_eq_true hlt]
          exact .pure image _
        · intro b hb
          obtain rfl := Option.some.inj hb
          omega
    | none =>
        have hp := hnone rfl
        rw [BucketRecord.toDisk, FileImage.holds_append, length_field32] at hfirst
        refine ⟨some start, ?_, by simp, ?_⟩
        · intro pos linked
          have hreadLen := run_freadAsserted_holds (f := ⟨image, off + 4, linked⟩) hfirst.1 (length_field32 _)
            (by decide)
          have hread := run_freadAsserted_holds (f := ⟨image, off + 4 + 4, linked⟩) hfirst.2 (length_field32 _)
            (by decide)
          have hvalue := signed_nat32 hsmall
          have hadd := run_addInt_of (a := off) (b := kBucketLengthSize) (c := ((off + 4 : Nat) : Int))
            (by rw [kBucketLengthSize]; omega) (by omega) (by omega)
          have hmul := run_mulInt_of (a := kBucketRecordSize) (b := n) (c := ((8 * n : Nat) : Int))
            (by rw [kBucketRecordSize]; omega) (by omega) (by omega)
          have hsum := run_addInt_of (a := ((off + 4 : Nat) : Int)) (b := ((8 * n : Nat) : Int)) (c := (start : Int))
            (by omega) (by omega) (by omega)
          refine ⟨off + 4 + 4 + 4, ?_⟩
          rw [checkOrder, if_pos hcond, hoff]
          simp only [run_bind, hadd, ok_bind, run_fseekAsserted_nat, hreadLen, hread, hvalue, hmul, hsum, run_pure,
            checkEQ32, decide_true]
        · intro b hb
          obtain rfl := Option.some.inj hb
          omega
  · have hzero := hempty (by omega)
    refine ⟨prev, ?_, ?_, ?_⟩
    · unfold checkOrder
      rw [if_neg (by omega)]
      exact .pure image _
    · intro h
      rw [hzero, hnone h]
      rfl
    · intro a ha
      have hlt := hsome a ha
      omega

theorem checkBuckets_returns (c : HashTableChecker) (checkElement : Int → Int → FileProgram Bool) (start : Nat)
    {n len : Nat} (hoff : c.offset = off) (hstart : start = off + 4 + 8 * n) (hend : off + len + 1 < 2 ^ 31)
    (hroom : start ≤ off + len)
    (hfirst : ∃ k : Nat, image.Holds (off + 4) (BucketRecord.mk k start).toDisk)
    (lis : List (LinkedList (HTKeyValue V))) (i p : Nat) (prev : Option Int) (hcount : i + lis.length ≤ n)
    (hrecords : image.Holds (off + 4 + 8 * i) (layout F.bucketSize ElementFormat.bucketRecord p lis))
    (hbuckets : image.Holds p (layout F.bucketSize F.bucketBytes p lis))
    (hfit : p + total F.bucketSize lis ≤ off + len)
    (hnone : prev = none → p = start) (hsome : ∀ a ∈ prev, a < (p : Int))
    (helem : ∀ k li, lis[k]? = some li → ∀ kv ∈ li.payloads, ∀ q : Nat, image.Holds q (F.encode q kv) →
      q + F.size kv ≤ off + len → Returns image (checkElement q (i + k : Nat)) true) :
    Returns image (c.checkBuckets checkElement off len n lis.length i prev) true := by
  induction lis generalizing i p prev with
  | nil => exact .pure image true
  | cons li lis ih =>
      intro pos linked
      have hsize : F.bucketSize li = 4 * li.numElements + total F.size li.payloads := rfl
      rw [total_cons] at hfit
      rw [List.length_cons] at hcount
      rw [layout, FileImage.holds_append, ElementFormat.bucketRecord, BucketRecord.length_toDisk] at hrecords
      rw [layout, FileImage.holds_append, F.length_bucketBytes] at hbuckets
      obtain ⟨hrecord, hlaterRecords⟩ := hrecords
      obtain ⟨hbucket, hlaterBuckets⟩ := hbuckets
      rw [BucketRecord.toDisk, FileImage.holds_append, length_field32] at hrecord
      rw [ElementFormat.bucketBytes, FileImage.holds_append, F.length_positionRecords,
        LinkedList.length_payloads] at hbucket
      have hreadLen := run_freadAsserted_holds (f := ⟨image, off + 4 + 8 * i, linked⟩) hrecord.1 (length_field32 _)
        (by decide)
      have hreadPos := run_freadAsserted_holds (f := ⟨image, off + 4 + 8 * i + 4, linked⟩) hrecord.2 (length_field32 _)
        (by decide)
      have hbase := run_addInt_of (a := off) (b := kBucketLengthSize) (c := ((off + 4 : Nat) : Int))
        (by rw [kBucketLengthSize]; omega) (by omega) (by omega)
      have hmul := run_mulInt_of (a := kBucketRecordSize) (b := i) (c := ((8 * i : Nat) : Int))
        (by rw [kBucketRecordSize]; omega) (by omega) (by omega)
      have hat := run_addInt_of (a := ((off + 4 : Nat) : Int)) (b := ((8 * i : Nat) : Int))
        (c := ((off + 4 + 8 * i : Nat) : Int)) (by omega) (by omega) (by omega)
      have htable := run_addInt_of (a := off) (b := len) (c := ((off + len : Nat) : Int)) (by omega) (by omega)
        (by omega)
      have hlast := run_addInt_of (a := ((off + len : Nat) : Int)) (b := 1) rfl (by omega) (by omega)
      obtain ⟨k, hfirst'⟩ := hfirst
      obtain ⟨prev', horder, hnone', hsome'⟩ := checkOrder_returns li.numElements hoff hstart (by omega) hfirst'
        hnone hsome F.bucketSize_empty (by omega)
      obtain ⟨pos₁, horder⟩ := horder (off + 4 + 8 * i + 4 + 4) linked
      obtain ⟨pos₂, hchain⟩ := checkChain_returns (fun q => checkElement q i) (by omega) li.payloads p 0
        (p + 4 * li.numElements) hbucket.1 hbucket.2 (by omega) (by rw [LinkedList.length_payloads]; omega)
        (helem 0 li rfl) pos₁ linked
      rw [LinkedList.length_payloads] at hchain
      obtain ⟨pos₃, hrest⟩ := ih (i + 1) (p + F.bucketSize li) prev' (by omega)
        (by rw [Nat.mul_succ]; exact hlaterRecords) hlaterBuckets (by omega) hnone' hsome' (by
          intro k li' hli' kv hkv q hq hroom'
          have hgood := helem (k + 1) li' (by simpa using hli') kv hkv q hq hroom'
          rwa [← Nat.add_assoc, Nat.add_right_comm] at hgood) pos₂ linked
      have hsmall : li.numElements < 2 ^ 31 ∧ p < 2 ^ 31 := by omega
      have hlen := signed_nat32 hsmall.1
      have hposition := signed_nat32 hsmall.2
      refine ⟨pos₃, ?_⟩
      simp only [List.length_cons, checkBuckets, hoff, run_bind, hbase, ok_bind, hmul, hat, run_fseekAsserted_nat,
        hreadLen, hreadPos, hlen, hposition, horder, htable, hlast, Int.toNat_natCast, hchain, hrest, run_pure,
        Bool.and_self]

theorem placed {t : HashTable V} {i : Nat} {li : LinkedList (HTKeyValue V)} (hi : t.buckets[i]? = some li)
    {kv : HTKeyValue V} (hkv : kv ∈ li.payloads) : kv.key.toNat % t.numBuckets = i := by
  apply t.placed i
  rw [List.getD_eq_getElem?_getD, hi]
  exact hkv

theorem check_returns (checkElement : Int → Int → Int → FileProgram Bool) {t : HashTable V} (ht : TableAt F image off t)
    (hend : off + F.tableSize t + 1 < 2 ^ 31)
    (helem : ∀ (i : Nat) li, t.buckets[i]? = some li → ∀ kv ∈ li.payloads, ∀ q : Nat, image.Holds q (F.encode q kv) →
      q + F.size kv ≤ off + F.tableSize t → Returns image (checkElement t.numBuckets q i) true) :
    Returns image (check ⟨off, F.tableSize t⟩ checkElement off (F.tableSize t)) true := by
  intro pos linked
  have hsize := F.tableSize_buckets t
  have h := ht.holds
  rw [ElementFormat.tableBytes, FileImage.holds_append, FileImage.holds_append, BucketListHeader.length_toDisk,
    F.length_bucketRecords, t.size] at h
  obtain ⟨hheader, hrecords, hbuckets⟩ := h
  have hread := run_freadAsserted_holds (f := ⟨image, off, linked⟩) hheader (BucketListHeader.length_toDisk _)
    (by decide)
  have hzero : 0 < t.buckets.length := by
    rw [t.size]
    exact t.pos
  have hfirst := (ht.bucket (List.getElem?_eq_getElem hzero)).1
  obtain ⟨pos', hloop⟩ := checkBuckets_returns ⟨off, F.tableSize t⟩ (checkElement t.numBuckets)
    (off + 4 + 8 * t.numBuckets) rfl rfl hend (by omega) ⟨_, hfirst⟩ t.buckets 0 (off + 4 + 8 * t.numBuckets)
    none (by rw [t.size]; omega) hrecords hbuckets (by omega) (fun _ => rfl) (by simp)
    (by simpa using helem) (off + 4) linked
  rw [t.size] at hloop
  have hmul := run_mulInt_of (a := t.numBuckets) (b := kBucketRecordSize) (c := ((8 * t.numBuckets : Nat) : Int))
    (by rw [kBucketRecordSize]; omega) (by omega) (by omega)
  have hfits : checkLT32 ((8 * t.numBuckets : Nat) : Int) (F.tableSize t) = true := by
    rw [checkLT32, decide_eq_true (by omega)]
  have hvalue : signed (BucketListHeader.mk t.numBuckets).toDisk = t.numBuckets := signed_nat32 (by omega)
  refine ⟨pos', ?_⟩
  simp only [check, run_bind, run_fseekAsserted_nat, ok_bind, hread, hvalue, hmul, hfits, Int.toNat_natCast, hloop,
    run_pure, Bool.and_self]

end HashTableChecker

/-- To check a bucket, the checker computes the sum after the end of the
table. -/
theorem HashTableChecker.end_lt_of_run {c : HashTableChecker} {checkElement : Int → Int → FileProgram Bool}
    {offset len numBuckets : Int} {n i : Nat} {prev : Option Int} {f : OpenFile} {r : Bool × OpenFile}
    (h : (c.checkBuckets checkElement offset len numBuckets (n + 1) i prev).run handle f = .ok r) :
    offset + len + 1 ≤ 2147483647 := by
  rw [checkBuckets] at h
  obtain ⟨base, _, _, h⟩ := (run_bind_eq_ok handle).mp h
  obtain ⟨skip, _, _, h⟩ := (run_bind_eq_ok handle).mp h
  obtain ⟨at_, _, _, h⟩ := (run_bind_eq_ok handle).mp h
  obtain ⟨_, _, _, h⟩ := (run_bind_eq_ok handle).mp h
  obtain ⟨curChainLen, _, _, h⟩ := (run_bind_eq_ok handle).mp h
  obtain ⟨curBucket, _, _, h⟩ := (run_bind_eq_ok handle).mp h
  obtain ⟨order, _, _, h⟩ := (run_bind_eq_ok handle).mp h
  obtain ⟨tableEnd, _, hend, h⟩ := (run_bind_eq_ok handle).mp h
  obtain ⟨last, _, hlast, _⟩ := (run_bind_eq_ok handle).mp h
  obtain ⟨rfl, _⟩ := addInt_of_run hend
  obtain ⟨rfl, _, hle, _⟩ := addInt_of_run hlast
  exact hle

namespace IndexTableChecker

/-- The words that the checker lets pass. -/
structure Checkable (wp : WordPostings) : Prop where
  letters : FileParser.LowerLetters wp.word
  short : wp.word.length < 8192
  positions : ∀ kv ∈ wp.postings.pairs, DocIDTableChecker.Ascending kv.value.payloads ∧ kv.value.numElements < 1000000

theorem checkLetter_lower {c : UInt8} (h : 97 ≤ c ∧ c ≤ 122) : checkLetter c = true := by
  obtain ⟨hlow, hhigh⟩ := h
  have hascii : isascii c = true := decide_eq_true (UInt8.le_trans hhigh (by decide))
  have hlower : islower c = true := by
    rw [islower, decide_eq_true hlow, decide_eq_true hhigh]
    rfl
  rw [checkLetter, hascii, hlower]
  cases FileParser.isalpha c <;> rfl

theorem checkElement_returns {c : HashTableChecker} (tableEnd : Nat) {kv : HTKeyValue WordPostings}
    (hword : Checkable kv.value) {q : Nat} (hc : c.offset + c.len = tableEnd) (hend : tableEnd + 1 < 2 ^ 31)
    (h : image.Holds q (wordFormat.encode q kv)) (hfit : q + wordFormat.size kv ≤ tableEnd) (n i : Int) :
    Returns image (checkElement c n q i) true := by
  intro pos linked
  have hsize : wordFormat.size kv = 6 + kv.value.word.length + postingFormat.tableSize kv.value.postings := rfl
  have htableSize := postingFormat.tableSize_buckets kv.value.postings
  have hshort := hword.short
  obtain ⟨hheader, h⟩ := FileImage.holds_append.mp h
  obtain ⟨hletters, htable⟩ := FileImage.holds_append.mp h
  rw [WordPostingsHeader.length_toDisk] at hletters htable
  rw [WordPostingsHeader.toDisk] at hheader
  obtain ⟨hwordLen, htableLen⟩ := FileImage.holds_append.mp hheader
  rw [length_field16] at htableLen
  have ht : TableAt postingFormat image (q + 6 + kv.value.word.length) kv.value.postings := ⟨htable, by omega⟩
  obtain ⟨pos', hnested⟩ := HashTableChecker.check_returns DocIDTableChecker.checkElement ht (by omega)
    (fun i li hi p hp q' hq' _ => by
      obtain ⟨hascending, hfew⟩ := hword.positions p (List.mem_flatMap.mpr ⟨li, List.mem_of_getElem? hi, hp⟩)
      exact DocIDTableChecker.checkElement_returns hascending hfew kv.value.postings.pos (by omega)
        (HashTableChecker.placed hi hp) hq') (q + 6 + kv.value.word.length) linked
  have hreadLen := run_freadAsserted_holds (f := ⟨image, q, linked⟩) hwordLen (length_field16 _) (by decide)
  have hreadTable := run_freadAsserted_holds (f := ⟨image, q + 2, linked⟩) htableLen (length_field32 _) (by decide)
  have hreadWord := run_readArray_holds (f := ⟨image, q + 6, linked⟩) hletters hword.letters.1
  have hadd₁ := run_addInt_of (a := q) (b := kWordLenSize) (c := ((q + 2 : Nat) : Int))
    (by rw [kWordLenSize]; omega) (by omega) (by omega)
  have hadd₂ := run_addInt_of (a := ((q + 2 : Nat) : Int)) (b := kDocIDTableLengthSize) (c := ((q + 6 : Nat) : Int))
    (by rw [kDocIDTableLengthSize]; omega) (by omega) (by omega)
  have hadd₃ := run_addInt_of (a := ((q + 6 : Nat) : Int)) (b := kv.value.word.length)
    (c := ((q + 6 + kv.value.word.length : Nat) : Int)) (by omega) (by omega) (by omega)
  have hadd₄ := run_addInt_of hc (by omega) (by omega)
  have hin : checkLT32 ((q + 6 + kv.value.word.length : Nat) : Int) tableEnd = true := by
    rw [checkLT32, decide_eq_true (by omega)]
  have hless : checkLT16 kv.value.word.length 8192 = true := by
    rw [checkLT16, decide_eq_true (by omega)]
  have hall : kv.value.word.all checkLetter = true := by
    rw [List.all_eq_true]
    intro b hb
    exact checkLetter_lower (hword.letters.2 b hb)
  have hsmall : postingFormat.tableSize kv.value.postings < 2 ^ 31 := by omega
  have hcount : signed (field16 kv.value.word.length) = kv.value.word.length := by
    rw [signed_field16, int16_of_lt (by omega) (by omega)]
  have htableCount := signed_nat32 hsmall
  refine ⟨pos', ?_⟩
  simp only [checkElement, run_bind, run_fseekAsserted_nat, ok_bind, hreadLen, hcount, hreadTable, htableCount, hadd₁,
    hadd₂, hadd₃, hadd₄, hreadWord, hnested, run_pure, hin, hless, hall, Bool.and_self]

end IndexTableChecker

theorem FileProgram.run_freadUpTo (n : Nat) (f : OpenFile) :
    (freadUpTo n).run handle f = .ok (f.image.slice f.pos (min n (f.image.length - f.pos)),
      { f with pos := f.pos + min n (f.image.length - f.pos) }) := by
  induction n with
  | zero =>
      rw [Nat.zero_min]
      rfl
  | succ n ih =>
      rw [freadUpTo, fread, run_bind, run_bind, run_perform, ok_bind, handle]
      by_cases h : f.pos + (n + 1) ≤ f.image.length
      · rw [if_pos h, Nat.min_eq_left (by omega)]
        rfl
      · have hmin : min n (f.image.length - f.pos) = min (n + 1) (f.image.length - f.pos) := by omega
        rw [hmin] at ih
        rw [if_neg h]
        exact ih

namespace FileIndexChecker

theorem foldFile_run (rounds : Nat) (bs : Bytes) (hrounds : bs.length < rounds) (crc crc' : CRC32)
    (hfold : crc.foldBytes bs = .ok crc') (pos : Nat) (linked : Bool) (h : image.Holds pos bs)
    (hlast : image.length = pos + bs.length) :
    (foldFile rounds bs.length crc).run handle ⟨image, pos, linked⟩ =
      .ok (crc', ⟨image, pos + bs.length, linked⟩) := by
  induction rounds generalizing bs crc pos with
  | zero => omega
  | succ rounds ih =>
      by_cases hempty : bs = []
      · subst hempty
        obtain rfl : crc = crc' := by simpa [CRC32.foldBytes] using hfold
        simp [foldFile]
      · have hpos : 0 < bs.length := List.length_pos_iff.mpr hempty
        have hsplit := List.take_append_drop 512 bs
        have hlen : (bs.take 512).length = min kBufSize (image.length - pos) := by
          rw [List.length_take, kBufSize]
          omega
        have hleft : (bs.length : Int) - (bs.take 512).length = ((bs.drop 512).length : Int) := by
          rw [List.length_take, List.length_drop]
          omega
        rw [← hsplit, CRC32.foldBytes_append] at hfold
        obtain ⟨crc₁, hfront, hrest⟩ := Run.bind_eq_ok.mp hfold
        rw [← hsplit, FileImage.holds_append] at h
        have hread := run_freadUpTo kBufSize ⟨image, pos, linked⟩
        simp only at hread
        rw [← hlen, h.1.slice] at hread
        have hsome : 0 < (bs.take 512).length := by
          rw [hlen, kBufSize]
          omega
        have hnext := ih (bs.drop 512) (by rw [List.length_drop]; omega) crc₁ hrest (pos + (bs.take 512).length) h.2
          (by rw [List.length_take, List.length_drop]; omega)
        have hin : (0 : Int) < (bs.length : Int) := by omega
        simp only [foldFile, hin, if_true, run_bind, hread, ok_bind, assert, hsome, decide_true, run_pure, hfront,
          run_ofRun_ok, hleft, hnext]
        congr 3
        rw [List.length_take, List.length_drop]
        omega

variable {mi : MemIndex} {dt : DocTable}

/-- What the constructor reads of the header. -/
def checkerOf (mi : MemIndex) (dt : DocTable) : FileIndexChecker :=
  ⟨docFormat.tableSize dt.idToName, wordFormat.tableSize mi⟩

theorem new_run (h : IndexFile mi dt image) (pos : Nat) :
    ∃ pos', new.run handle ⟨image, pos, true⟩ = .ok (checkerOf mi dt, ⟨image, pos', true⟩) := by
  obtain ⟨checksum, _, hall⟩ := h.holds
  have hsize := indexSize_eq mi dt
  have hfits := h.fits
  have hheader := (FileImage.holds_append.mp hall).1
  rw [IndexFileHeader.toDisk, FileImage.holds_append, FileImage.holds_append, FileImage.holds_append, length_fieldU32,
    length_fieldU32, length_field32] at hheader
  obtain ⟨_, _, hdocs, hindex⟩ := hheader
  have hopen : (succeeds .openRead).run handle ⟨image, pos, true⟩ = .ok (true, ⟨image, 0, true⟩) := rfl
  have hreadDocs := run_freadAsserted_holds (f := ⟨image, 8, true⟩) hdocs (length_field32 _) (by decide)
  have hreadIndex := run_freadAsserted_holds (f := ⟨image, 12, true⟩) hindex (length_field32 _) (by decide)
  have hsmall : docFormat.tableSize dt.idToName < 2 ^ 31 ∧ wordFormat.tableSize mi < 2 ^ 31 := by omega
  have hdocSize := signed_nat32 hsmall.1
  have hindexSize := signed_nat32 hsmall.2
  have hseek : (0 : Int) ≤ 8 := by decide
  have hat : (8 : Int).toNat = 8 := rfl
  refine ⟨16, ?_⟩
  simp only [new, run_bind, hopen, ok_bind, assert, if_true, run_pure, run_fseek, hseek, decide_true, hat, hreadDocs,
    hreadIndex]
  simp only [indexHeader, hdocSize, hindexSize]
  rfl

theorem checkHeader_returns (h : IndexFile mi dt image) : Returns image (checkerOf mi dt).checkHeader true := by
  intro pos linked
  obtain ⟨checksum, hsum, hall⟩ := h.holds
  have hsize := indexSize_eq mi dt
  have hfits := h.fits
  have hlength := h.length
  have hlen := length_tablesBytes mi dt
  obtain ⟨hheader, htables⟩ := FileImage.holds_append.mp hall
  rw [IndexFileHeader.toDisk, FileImage.holds_append, FileImage.holds_append, length_fieldU32] at hheader
  rw [IndexFileHeader.length_toDisk, Nat.zero_add] at htables
  obtain ⟨hmagic, hchecksum, _⟩ := hheader
  obtain ⟨crc, hfold, hret⟩ := Run.bind_eq_ok.mp hsum
  obtain rfl : crc.getFinalCRC.1 = checksum := by simpa using hret
  have hreadMagic := run_freadAsserted_holds (f := ⟨image, 0, linked⟩) hmagic (length_fieldU32 _) (by decide)
  have hreadChecksum := run_freadAsserted_holds (f := ⟨image, 4, linked⟩) hchecksum (length_fieldU32 _) (by decide)
  have hstat (f : OpenFile) : fileSize.run handle f = .ok (f.image.length, f) := rfl
  have hadd := run_addInt_of (a := docFormat.tableSize dt.idToName) (b := wordFormat.tableSize mi) rfl (by omega)
    (by omega)
  have hloop := foldFile_run ((tablesBytes mi dt).length + 1) _ (Nat.lt_succ_self _) _ _ hfold 16 linked htables
    (by omega)
  have hbytes : (image.length : Int) - kFileIndexHeaderSize = (tablesBytes mi dt).length := by
    rw [kFileIndexHeaderSize]
    omega
  have hsum' : ((tablesBytes mi dt).length : Int) = docFormat.tableSize dt.idToName + wordFormat.tableSize mi := by
    omega
  have hsmall : ((tablesBytes mi dt).length : Int) < 2 ^ 31 := by omega
  have hcut : int32 ((tablesBytes mi dt).length : Int) = (tablesBytes mi dt).length := int32_of_lt (by omega) hsmall
  have hsizeGood : checkEQ32 ((tablesBytes mi dt).length : Int)
      (docFormat.tableSize dt.idToName + wordFormat.tableSize mi) = true := decide_eq_true hsum'
  have hstart : (0 : Int) ≤ kMagicNumberOffset := by decide
  have hat : kMagicNumberOffset.toNat = 0 := rfl
  have hseek : (0 : Int) ≤ kFileIndexHeaderSize := by decide
  have hat' : kFileIndexHeaderSize.toNat = 16 := rfl
  refine ⟨16 + (tablesBytes mi dt).length, ?_⟩
  simp only [checkHeader, checkerOf, run_bind, run_fseekAsserted, hstart, if_true, hat, ok_bind, hreadMagic,
    Nat.zero_add, hreadChecksum, hstat, hadd, run_fseek, hseek, hat', hbytes, hcut, Int.toNat_natCast, hloop,
    hsizeGood, run_pure]
  simp only [indexHeader, host32_fieldU32, checkEQ32, decide_true, Bool.and_self]

/-- What the checker lets pass of the two structures. -/
structure Checkable (mi : MemIndex) (dt : DocTable) : Prop where
  names : ∀ kv ∈ dt.idToName.pairs, kv.value ≠ [] ∧ kv.value.length ≤ 32767 ∧ ∀ c ∈ kv.value, isascii c = true
  words : ∀ kv ∈ mi.pairs, IndexTableChecker.Checkable kv.value

theorem Checkable.representable (h : Checkable mi dt) : WriteIndex.Representable mi dt := by
  constructor
  · intro kv hkv
    obtain ⟨hne, hle, _⟩ := h.names kv hkv
    exact ⟨hne, hle⟩
  · intro kv hkv
    have hshort := (h.words kv hkv).short
    omega

theorem le_tableSize {V : Type} (F : ElementFormat V) (t : HashTable V) : 12 ≤ F.tableSize t := by
  have hsize := F.tableSize_buckets t
  have hpos := t.pos
  omega

theorem checkDocTable_returns (hck : Checkable mi dt) (h : IndexFile mi dt image) :
    Returns image (checkerOf mi dt).checkDocTable true := by
  have hsize := indexSize_eq mi dt
  have htable := docFormat.tableSize_buckets dt.idToName
  have hfits := h.fits
  have hindex := le_tableSize wordFormat mi
  have hend : 16 + docFormat.tableSize dt.idToName + 1 < 2 ^ 31 := by omega
  exact HashTableChecker.check_returns DocTableChecker.checkElement h.docs hend
    fun i li hi kv hkv q hq _ => by
      obtain ⟨hne, hle, hascii⟩ := hck.names kv (List.mem_flatMap.mpr ⟨li, List.mem_of_getElem? hi, hkv⟩)
      exact DocTableChecker.checkElement_returns hne hle hascii dt.idToName.pos (by omega)
        (HashTableChecker.placed hi hkv) hq

theorem checkIndexTable_returns (hck : Checkable mi dt) (h : IndexFile mi dt image)
    (hedge : SearchEngine.indexSize mi dt < 2 ^ 31 - 1) : Returns image (checkerOf mi dt).checkIndexTable true := by
  have hsize := indexSize_eq mi dt
  intro pos linked
  have hadd := run_addInt_of (a := kFileIndexHeaderSize) (b := docFormat.tableSize dt.idToName)
    (c := ((16 + docFormat.tableSize dt.idToName : Nat) : Int)) (by rw [kFileIndexHeaderSize]; omega) (by omega)
    (by omega)
  let itc : HashTableChecker := ⟨((16 + docFormat.tableSize dt.idToName : Nat) : Int), wordFormat.tableSize mi⟩
  obtain ⟨pos', hcheck⟩ := HashTableChecker.check_returns (IndexTableChecker.checkElement itc) h.words
    (by omega) (fun i li hi kv hkv q hq hroom => by
      have hword := hck.words kv (List.mem_flatMap.mpr ⟨li, List.mem_of_getElem? hi, hkv⟩)
      exact IndexTableChecker.checkElement_returns (16 + docFormat.tableSize dt.idToName + wordFormat.tableSize mi)
        hword rfl (by omega) hq hroom _ _) pos linked
  refine ⟨pos', ?_⟩
  simp only [checkIndexTable, checkerOf, run_bind, hadd, ok_bind]
  exact hcheck

/-- The bytes of the file end before the largest int. -/
theorem end_lt_of_run (h : IndexFile mi dt image) {pos : Nat} {linked : Bool} {r : Bool × OpenFile}
    (hrun : (checkerOf mi dt).checkIndexTable.run handle ⟨image, pos, linked⟩ = .ok r) :
    SearchEngine.indexSize mi dt < 2 ^ 31 - 1 := by
  have hsize := indexSize_eq mi dt
  have htable := wordFormat.tableSize_buckets mi
  have hfits := h.fits
  have hadd := run_addInt_of (a := kFileIndexHeaderSize) (b := docFormat.tableSize dt.idToName)
    (c := ((16 + docFormat.tableSize dt.idToName : Nat) : Int)) (by rw [kFileIndexHeaderSize]; omega) (by omega)
    (by omega)
  have hread := run_freadAsserted_holds (f := ⟨image, 16 + docFormat.tableSize dt.idToName, linked⟩)
    (FileImage.holds_append.mp h.words.holds).1 (BucketListHeader.length_toDisk _) (by decide)
  have hmul := run_mulInt_of (a := mi.numBuckets) (b := kBucketRecordSize) (c := ((8 * mi.numBuckets : Nat) : Int))
    (by rw [kBucketRecordSize]; omega) (by omega) (by omega)
  have hvalue : signed (BucketListHeader.mk mi.numBuckets).toDisk = mi.numBuckets := signed_nat32 (by omega)
  simp only [checkIndexTable, checkerOf, HashTableChecker.check, run_bind, hadd, ok_bind, run_fseekAsserted_nat, hread,
    hvalue, hmul, Int.toNat_natCast] at hrun
  obtain ⟨n, hn⟩ := Nat.exists_eq_succ_of_ne_zero (Nat.ne_of_gt mi.pos)
  rw [hn] at hrun
  obtain ⟨_, hloop, _⟩ := bind_eq_ok.mp hrun
  have hend := HashTableChecker.end_lt_of_run hloop
  omega

/-- The checker lets an index file pass, except for one of the very largest
size. -/
theorem hw3fsck_iff (hck : Checkable mi dt) (h : IndexFile mi dt image) (pos : Nat) :
    (∃ file, hw3fsck.run handle ⟨image, pos, true⟩ = .ok (true, file)) ↔
      SearchEngine.indexSize mi dt < 2 ^ 31 - 1 := by
  obtain ⟨pos₁, hnew⟩ := new_run h pos
  obtain ⟨pos₂, hheader⟩ := checkHeader_returns h pos₁ true
  obtain ⟨pos₃, hdocs⟩ := checkDocTable_returns hck h pos₂ true
  constructor
  · rintro ⟨file, hrun⟩
    simp only [hw3fsck, checkFile, run_bind, hnew, hheader, hdocs, ok_bind] at hrun
    obtain ⟨_, hindex, _⟩ := bind_eq_ok.mp hrun
    exact end_lt_of_run h hindex
  · intro hedge
    obtain ⟨pos₄, hindex⟩ := checkIndexTable_returns hck h hedge pos₃ true
    refine ⟨⟨image, pos₄, true⟩, ?_⟩
    simp only [hw3fsck, checkFile, run_bind, hnew, hheader, hdocs, hindex, ok_bind, run_pure, Bool.and_self]

end FileIndexChecker

end SearchEngine
