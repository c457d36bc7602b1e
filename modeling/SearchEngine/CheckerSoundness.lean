import SearchEngine.CheckerAcceptance
import SearchEngine.StoredElements

/-! What a check that passes says about a file of any content. -/

namespace SearchEngine

open BigEndian FileProgram Program OpenFile HashTableReader

namespace FileImage

theorem take_slice (image : FileImage) (off a b : Nat) : (image.slice off (a + b)).take a = image.slice off a := by
  rw [slice_append]
  exact List.take_left' (length_slice _ _ _)

theorem drop_slice (image : FileImage) (off a b : Nat) :
    (image.slice off (a + b)).drop a = image.slice (off + a) b := by
  rw [slice_append]
  exact List.drop_left' (length_slice _ _ _)

end FileImage

namespace FileProgram

theorem fseekAsserted_of_run {offset : Int} {f f' : OpenFile} {u : Unit}
    (h : (fseekAsserted offset).run handle f = .ok (u, f')) : 0 ≤ offset ∧ f' = { f with pos := offset.toNat } := by
  rw [run_fseekAsserted] at h
  split at h
  · next hnonneg => exact ⟨hnonneg, (Prod.mk.inj (Except.ok.inj h)).2.symm⟩
  · cases h

theorem freadAsserted_of_run {n : Nat} {f f' : OpenFile} {bs : Bytes}
    (h : (freadAsserted n).run handle f = .ok (bs, f')) :
    f.pos + n ≤ f.image.length ∧ bs = f.image.slice f.pos n ∧ f' = { f with pos := f.pos + n } := by
  rw [run_freadAsserted] at h
  split at h
  · next hroom =>
    obtain ⟨hbs, hf'⟩ := Prod.mk.inj (Except.ok.inj h)
    exact ⟨hroom, hbs.symm, hf'.symm⟩
  · cases h

theorem readArray_of_run {len : Int} {f f' : OpenFile} {bs : Bytes}
    (h : (readArray len).run handle f = .ok (bs, f')) :
    0 < len ∧ f.pos + len.toNat ≤ f.image.length ∧ f' = { f with pos := f.pos + len.toNat } := by
  rw [run_readArray] at h
  split at h
  · cases h
  · split at h
    · cases h
    · split at h
      · next hroom => exact ⟨by omega, hroom, (Prod.mk.inj (Except.ok.inj h)).2.symm⟩
      · cases h

theorem ofRun_of_run {α : Type} {x : Run α} {a : α} {f f' : OpenFile}
    (h : (ofRun x).run handle f = .ok (a, f')) : x = .ok a ∧ f = f' := by
  cases x with
  | error e => cases h
  | ok b =>
      obtain ⟨rfl, rfl⟩ := Prod.mk.inj (Except.ok.inj h)
      exact ⟨rfl, rfl⟩

theorem mulInt_of_run {a b c : Int} {f f' : OpenFile} (h : (mulInt a b).run handle f = .ok (c, f')) :
    c = a * b ∧ f = f' := by
  rw [run_mulInt_eq] at h
  split at h
  · obtain ⟨hc, hf'⟩ := Prod.mk.inj (Except.ok.inj h)
    exact ⟨hc.symm, hf'⟩
  · cases h

theorem pure_of_run {α : Type} {a b : α} {f f' : OpenFile}
    (h : (pure a : FileProgram α).run handle f = .ok (b, f')) : a = b ∧ f = f' :=
  Prod.mk.inj (Except.ok.inj h)

/-- To pass, a check has to leave the file alone and to establish this of
it. -/
structure Establishes (p : FileProgram Bool) (P : FileImage → Prop) : Prop where
  of_run : ∀ f f', p.run handle f = .ok (true, f') → f'.image = f.image ∧ P f.image

end FileProgram

theorem docIdMod_eq {docId : UInt64} {n r : Int} (hpos : 0 < n) (hle : n ≤ 2147483647)
    (h : docIdMod docId n = .ok r) : r = ((docId.toNat % n.toNat : Nat) : Int) := by
  obtain ⟨m, rfl⟩ := Int.eq_ofNat_of_zero_le (Int.le_of_lt hpos)
  rw [docIdMod_nat docId (by omega) (by omega)] at h
  exact (Except.ok.inj h).symm

namespace DocTableReader

variable (image : FileImage) (p : Int)

theorem elementAt_docId : (elementAt image p).docId = host64 (image.slice p.toNat 8) :=
  congrArg host64 (image.take_slice p.toNat 8 2)

theorem elementAt_fileNameBytes : (elementAt image p).fileNameBytes = signed (image.slice (p.toNat + 8) 2) :=
  congrArg signed (image.drop_slice p.toNat 8 2)

end DocTableReader

namespace DocTableChecker

open DocTableReader

theorem checkElement_establishes {n : Int} (hpos : 0 < n) (hle : n ≤ 2147483647) (p : Int) (i : Nat) :
    Establishes (checkElement n p i) fun image =>
      Readable image p ∧ (elementAt image p).docId.toNat % n.toNat = i := by
  constructor
  intro f f' h
  rw [checkElement] at h
  obtain ⟨_, _, hseek, h⟩ := (run_bind_eq_ok handle).mp h
  obtain ⟨hnonneg, rfl⟩ := fseekAsserted_of_run hseek
  obtain ⟨_, _, hreadId, h⟩ := (run_bind_eq_ok handle).mp h
  obtain ⟨_, rfl, rfl⟩ := freadAsserted_of_run hreadId
  obtain ⟨r, _, hrem, h⟩ := (run_bind_eq_ok handle).mp h
  obtain ⟨hmod, rfl⟩ := ofRun_of_run hrem
  obtain ⟨_, _, hreadLen, h⟩ := (run_bind_eq_ok handle).mp h
  obtain ⟨hroom, rfl, rfl⟩ := freadAsserted_of_run hreadLen
  obtain ⟨_, _, hreadName, h⟩ := (run_bind_eq_ok handle).mp h
  obtain ⟨_, hname, rfl⟩ := readArray_of_run hreadName
  obtain ⟨hgood, rfl⟩ := pure_of_run h
  simp only at hmod hroom hname hgood
  have hsame := docIdMod_eq hpos hle hmod
  have hbucket : (i : Int) = int32 r := of_decide_eq_true (Bool.and_eq_true_iff.mp hgood).1
  have hlt := Nat.mod_lt (host64 (f.image.slice p.toNat 8)).toNat (show 0 < n.toNat by omega)
  rw [← elementAt_docId] at hsame hlt
  rw [← elementAt_fileNameBytes] at hname
  refine ⟨rfl, ⟨⟨hnonneg, ?_⟩, .inr ?_⟩, ?_⟩
  · exact hroom
  · exact hname
  · rw [hsame, int32_of_lt (by omega) (by omega)] at hbucket
    exact (Int.natCast_inj.mp hbucket).symm

end DocTableChecker

namespace DocIDTableReader

variable (image : FileImage) (p : Int)

theorem elementAt_docId : (elementAt image p).docId = host64 (image.slice p.toNat 8) :=
  congrArg host64 (image.take_slice p.toNat 8 4)

theorem elementAt_numPositions : (elementAt image p).numPositions = signed (image.slice (p.toNat + 8) 4) :=
  congrArg signed (image.drop_slice p.toNat 8 4)

end DocIDTableReader

namespace DocIDTableChecker

open DocIDTableReader

theorem checkPositions_of_run {n : Nat} {prevPos : Option Int} {f f' : OpenFile} {b : Bool}
    (h : (checkPositions n prevPos).run handle f = .ok (b, f')) :
    f'.image = f.image ∧ (n = 0 ∨ f.pos + 4 * n ≤ f.image.length) := by
  induction n generalizing prevPos f b with
  | zero =>
      obtain ⟨_, rfl⟩ := pure_of_run h
      exact ⟨rfl, .inl rfl⟩
  | succ n ih =>
      rw [checkPositions] at h
      obtain ⟨_, _, hread, h⟩ := (run_bind_eq_ok handle).mp h
      obtain ⟨hroom, rfl, rfl⟩ := freadAsserted_of_run hread
      obtain ⟨_, _, hrest, h⟩ := (run_bind_eq_ok handle).mp h
      obtain ⟨_, rfl⟩ := pure_of_run h
      obtain ⟨himage, hlater⟩ := ih hrest
      refine ⟨himage, .inr ?_⟩
      simp only at hlater
      omega

theorem checkElement_establishes {n : Int} (hpos : 0 < n) (hle : n ≤ 2147483647) (p : Int) (i : Nat) :
    Establishes (checkElement n p i) fun image =>
      Readable image p ∧ (elementAt image p).docId.toNat % n.toNat = i := by
  constructor
  intro f f' h
  rw [checkElement] at h
  obtain ⟨_, _, hseek, h⟩ := (run_bind_eq_ok handle).mp h
  obtain ⟨hnonneg, rfl⟩ := fseekAsserted_of_run hseek
  obtain ⟨_, _, hreadId, h⟩ := (run_bind_eq_ok handle).mp h
  obtain ⟨_, rfl, rfl⟩ := freadAsserted_of_run hreadId
  obtain ⟨r, _, hrem, h⟩ := (run_bind_eq_ok handle).mp h
  obtain ⟨hmod, rfl⟩ := ofRun_of_run hrem
  obtain ⟨_, _, hreadLen, h⟩ := (run_bind_eq_ok handle).mp h
  obtain ⟨hroom, rfl, rfl⟩ := freadAsserted_of_run hreadLen
  obtain ⟨_, _, hpositions, h⟩ := (run_bind_eq_ok handle).mp h
  obtain ⟨himage, hlist⟩ := checkPositions_of_run hpositions
  obtain ⟨hgood, rfl⟩ := pure_of_run h
  simp only at hmod hroom hlist hgood himage
  have hsame := docIdMod_eq hpos hle hmod
  have hbucket : (i : Int) = int64 r := of_decide_eq_true (Bool.and_eq_true_iff.mp (Bool.and_eq_true_iff.mp hgood).1).1
  have hlt := Nat.mod_lt (host64 (f.image.slice p.toNat 8)).toNat (show 0 < n.toNat by omega)
  rw [← elementAt_docId] at hsame hlt
  rw [← elementAt_numPositions] at hlist
  refine ⟨himage, ⟨⟨hnonneg, ?_⟩, ?_⟩, ?_⟩
  · exact hroom
  · exact hlist
  · rw [hsame, int64_of_lt (by omega) (by omega)] at hbucket
    exact (Int.natCast_inj.mp hbucket).symm

end DocIDTableChecker

namespace HashTableChecker

theorem checkChain_establishes {checkElement : Int → FileProgram Bool} {P : Int → FileImage → Prop}
    (helem : ∀ p, Establishes (checkElement p) (P p)) (tableEnd cur : Int) (n j : Nat) :
    Establishes (checkChain checkElement tableEnd cur n j) fun image => ∀ k < n, 0 ≤ cur + 4 * (j + k : Nat) ∧
      (cur + 4 * (j + k : Nat)).toNat + 4 ≤ image.length ∧
        P (positionAt image (cur + 4 * (j + k : Nat)).toNat) image := by
  constructor
  intro f f' h
  induction n generalizing j f with
  | zero =>
      obtain ⟨_, rfl⟩ := pure_of_run h
      exact ⟨rfl, fun k hk => absurd hk (Nat.not_lt_zero k)⟩
  | succ n ih =>
      rw [checkChain] at h
      obtain ⟨_, _, hmul, h⟩ := (run_bind_eq_ok handle).mp h
      obtain ⟨rfl, rfl⟩ := mulInt_of_run hmul
      obtain ⟨_, _, hadd, h⟩ := (run_bind_eq_ok handle).mp h
      obtain ⟨rfl, _, _, rfl⟩ := addInt_of_run hadd
      obtain ⟨_, _, hseek, h⟩ := (run_bind_eq_ok handle).mp h
      obtain ⟨hnonneg, rfl⟩ := fseekAsserted_of_run hseek
      obtain ⟨_, _, hread, h⟩ := (run_bind_eq_ok handle).mp h
      obtain ⟨hroom, rfl, rfl⟩ := freadAsserted_of_run hread
      obtain ⟨_, _, hlast, h⟩ := (run_bind_eq_ok handle).mp h
      obtain ⟨rfl, _, _, rfl⟩ := addInt_of_run hlast
      obtain ⟨good, f₁, hgood, h⟩ := (run_bind_eq_ok handle).mp h
      obtain ⟨rest, f₂, hrest, h⟩ := (run_bind_eq_ok handle).mp h
      obtain ⟨hall, rfl⟩ := pure_of_run h
      obtain ⟨hfirst, rfl⟩ := Bool.and_eq_true_iff.mp hall
      obtain ⟨_, rfl⟩ := Bool.and_eq_true_iff.mp hfirst
      obtain ⟨himage, hP⟩ := (helem _).of_run _ _ hgood
      obtain ⟨himage', hlater⟩ := ih (j + 1) f₁ hrest
      have hstep : cur + (j : Int) * kElementPositionSize = cur + 4 * (j + 0 : Nat) := by
        rw [kElementPositionSize]
        omega
      rw [hstep] at hnonneg hroom hP
      rw [himage] at himage' hlater
      refine ⟨himage', ?_⟩
      intro k hk
      cases k with
      | zero => exact ⟨hnonneg, hroom, hP⟩
      | succ k =>
          have hnext : j + 1 + k = j + (k + 1) := by omega
          have hk' := hlater k (by omega)
          rwa [hnext] at hk'

theorem checkOrder_of_run {c : HashTableChecker} {n len p : Int} {prev : Option Int} {f f' : OpenFile}
    {r : Bool × Option Int} (h : (c.checkOrder n len p prev).run handle f = .ok (r, f')) : f'.image = f.image := by
  unfold checkOrder at h
  split at h
  · cases prev with
    | some a =>
        obtain ⟨_, rfl⟩ := pure_of_run h
        rfl
    | none =>
        obtain ⟨_, _, hadd, h⟩ := (run_bind_eq_ok handle).mp h
        obtain ⟨rfl, _, _, rfl⟩ := addInt_of_run hadd
        obtain ⟨_, _, hseek, h⟩ := (run_bind_eq_ok handle).mp h
        obtain ⟨_, rfl⟩ := fseekAsserted_of_run hseek
        obtain ⟨_, _, hreadLen, h⟩ := (run_bind_eq_ok handle).mp h
        obtain ⟨_, _, rfl⟩ := freadAsserted_of_run hreadLen
        obtain ⟨_, _, hread, h⟩ := (run_bind_eq_ok handle).mp h
        obtain ⟨_, _, rfl⟩ := freadAsserted_of_run hread
        obtain ⟨_, _, hadd, h⟩ := (run_bind_eq_ok handle).mp h
        obtain ⟨rfl, _, _, rfl⟩ := addInt_of_run hadd
        obtain ⟨_, _, hmul, h⟩ := (run_bind_eq_ok handle).mp h
        obtain ⟨rfl, rfl⟩ := mulInt_of_run hmul
        obtain ⟨_, _, hsum, h⟩ := (run_bind_eq_ok handle).mp h
        obtain ⟨rfl, _, _, rfl⟩ := addInt_of_run hsum
        obtain ⟨_, rfl⟩ := pure_of_run h
        rfl
  · obtain ⟨_, rfl⟩ := pure_of_run h
    rfl

theorem recordAt_chainNumElements (image : FileImage) (p : Int) :
    (recordAt image p).chainNumElements = signed (image.slice p.toNat 4) :=
  congrArg signed (image.take_slice p.toNat 4 4)

theorem recordAt_position (image : FileImage) (p : Int) :
    (recordAt image p).position = signed (image.slice (p.toNat + 4) 4) :=
  congrArg signed (image.drop_slice p.toNat 4 4)

/-- A bucket whose record is at this place, with what holds of its elements. -/
structure BucketOk (image : FileImage) (Q : Int → Prop) (p : Int) : Prop where
  record : image.Within p BucketRecord.sizeof
  fits : p ≤ 2147483647
  chain : chainOf image (recordAt image p) ≠ [] → HasChain image (recordAt image p)
  element : ∀ q ∈ chainOf image (recordAt image p), Q q

theorem bucketOk_of_chain {image : FileImage} {Q : Int → Prop} {p : Int} (hrecord : image.Within p BucketRecord.sizeof)
    (hfits : p ≤ 2147483647)
    (h : ∀ k < (recordAt image p).chainNumElements.toNat, 0 ≤ (recordAt image p).position + 4 * (0 + k : Nat) ∧
      ((recordAt image p).position + 4 * (0 + k : Nat)).toNat + 4 ≤ image.length ∧
        Q (positionAt image ((recordAt image p).position + 4 * (0 + k : Nat)).toNat)) :
    BucketOk image Q p := by
  refine ⟨hrecord, hfits, ?_, ?_⟩
  · intro hne
    have hpos : 0 < (recordAt image p).chainNumElements.toNat := by
      apply Nat.pos_of_ne_zero
      intro hzero
      rw [chainOf, hzero] at hne
      exact hne rfl
    have hfirst := (h 0 hpos).1
    obtain ⟨_, hlast, _⟩ := h ((recordAt image p).chainNumElements.toNat - 1) (by omega)
    exact ⟨by omega, .inr (by omega)⟩
  · intro q hq
    obtain ⟨k, hk, rfl⟩ := List.mem_map.mp hq
    have hpos := List.mem_range.mp hk
    have hfirst := (h 0 (by omega)).1
    obtain ⟨_, _, hQ⟩ := h k hpos
    have hat : ((recordAt image p).position + 4 * (0 + k : Nat)).toNat = (recordAt image p).position.toNat + 4 * k := by
      omega
    rwa [hat] at hQ

theorem checkBuckets_establishes {c : HashTableChecker} {checkElement : Int → Int → FileProgram Bool}
    {P : Nat → Int → FileImage → Prop} (helem : ∀ (i : Nat) p, Establishes (checkElement p i) (P i p))
    (offset len numBuckets : Int) (n i : Nat) (prev : Option Int) :
    Establishes (c.checkBuckets checkElement offset len numBuckets n i prev) fun image => ∀ k < n,
      BucketOk image (fun q => P (i + k) q image) (c.offset + 4 + 8 * (i + k : Nat)) := by
  constructor
  intro f f' h
  induction n generalizing i prev f with
  | zero =>
      obtain ⟨_, rfl⟩ := pure_of_run h
      exact ⟨rfl, fun k hk => absurd hk (Nat.not_lt_zero k)⟩
  | succ n ih =>
      rw [checkBuckets] at h
      obtain ⟨_, _, hbase, h⟩ := (run_bind_eq_ok handle).mp h
      obtain ⟨rfl, _, _, rfl⟩ := addInt_of_run hbase
      obtain ⟨_, _, hmul, h⟩ := (run_bind_eq_ok handle).mp h
      obtain ⟨rfl, rfl⟩ := mulInt_of_run hmul
      obtain ⟨_, _, hadd, h⟩ := (run_bind_eq_ok handle).mp h
      obtain ⟨rfl, _, hfits, rfl⟩ := addInt_of_run hadd
      obtain ⟨_, _, hseek, h⟩ := (run_bind_eq_ok handle).mp h
      obtain ⟨hnonneg, rfl⟩ := fseekAsserted_of_run hseek
      obtain ⟨_, _, hreadLen, h⟩ := (run_bind_eq_ok handle).mp h
      obtain ⟨_, rfl, rfl⟩ := freadAsserted_of_run hreadLen
      obtain ⟨_, _, hreadPos, h⟩ := (run_bind_eq_ok handle).mp h
      obtain ⟨hroom, rfl, rfl⟩ := freadAsserted_of_run hreadPos
      obtain ⟨⟨ordered, prev'⟩, f₁, horder, h⟩ := (run_bind_eq_ok handle).mp h
      have himage := checkOrder_of_run horder
      obtain ⟨_, _, htable, h⟩ := (run_bind_eq_ok handle).mp h
      obtain ⟨rfl, _, _, rfl⟩ := addInt_of_run htable
      obtain ⟨_, _, hlast, h⟩ := (run_bind_eq_ok handle).mp h
      obtain ⟨rfl, _, _, rfl⟩ := addInt_of_run hlast
      obtain ⟨good, f₂, hgood, h⟩ := (run_bind_eq_ok handle).mp h
      obtain ⟨rest, f₃, hrest, h⟩ := (run_bind_eq_ok handle).mp h
      obtain ⟨hall, rfl⟩ := pure_of_run h
      obtain ⟨hfirst, rfl⟩ := Bool.and_eq_true_iff.mp hall
      obtain ⟨_, rfl⟩ := Bool.and_eq_true_iff.mp hfirst
      obtain ⟨himage', hchain⟩ := (checkChain_establishes (helem i) _ _ _ _).of_run _ _ hgood
      obtain ⟨himage'', hlater⟩ := ih (i + 1) prev' f₂ hrest
      have hstep : c.offset + kBucketLengthSize + kBucketRecordSize * (i : Int) =
          c.offset + 4 + 8 * (i + 0 : Nat) := rfl
      rw [hstep] at hnonneg hfits hroom hchain
      rw [himage', himage] at himage'' hlater
      rw [himage] at hchain
      refine ⟨himage'', ?_⟩
      intro k hk
      cases k with
      | zero =>
          rw [← recordAt_chainNumElements] at hchain
          apply bucketOk_of_chain ⟨hnonneg, hroom⟩ hfits
          rw [recordAt_position]
          exact hchain
      | succ k =>
          have hnext : i + 1 + k = i + (k + 1) := by omega
          have hk' := hlater k (by omega)
          rwa [hnext] at hk'

/-- A table that passes is sound, if its elements are when they pass. -/
theorem check_establishes {c : HashTableChecker} {checkElement : Int → Int → Int → FileProgram Bool}
    {P : Int → Nat → Int → FileImage → Prop}
    (helem : ∀ n, 0 < n → n ≤ 2147483647 → ∀ (i : Nat) p, Establishes (checkElement n p i) (P n i p))
    (offset len : Int) :
    Establishes (c.check checkElement offset len) fun image =>
      Sound image c.offset fun i p => P (tableReader image c.offset).numBuckets i p image := by
  constructor
  intro f f' h
  rw [check] at h
  obtain ⟨_, _, hseek, h⟩ := (run_bind_eq_ok handle).mp h
  obtain ⟨hnonneg, rfl⟩ := fseekAsserted_of_run hseek
  obtain ⟨_, _, hread, h⟩ := (run_bind_eq_ok handle).mp h
  obtain ⟨hroom, rfl, rfl⟩ := freadAsserted_of_run hread
  obtain ⟨_, _, hmul, h⟩ := (run_bind_eq_ok handle).mp h
  obtain ⟨rfl, rfl⟩ := mulInt_of_run hmul
  obtain ⟨good, f₁, hgood, h⟩ := (run_bind_eq_ok handle).mp h
  obtain ⟨hall, rfl⟩ := pure_of_run h
  obtain ⟨_, rfl⟩ := Bool.and_eq_true_iff.mp hall
  have hnum : signed (f.image.slice c.offset.toNat 4) = (tableReader f.image c.offset).numBuckets := rfl
  simp only [hnum] at hgood
  by_cases hpos : 0 < (tableReader f.image c.offset).numBuckets
  · obtain ⟨himage, hbuckets⟩ :=
      (checkBuckets_establishes (helem _ hpos (numBuckets_le _ _)) _ _ _ _ _ _).of_run _ _ hgood
    simp only [Nat.zero_add] at hbuckets
    exact ⟨himage, ⟨hnonneg, hroom⟩, fun i hi => ⟨(hbuckets i hi).record, (hbuckets i hi).fits⟩,
      fun i hi => (hbuckets i hi).chain, fun i hi => (hbuckets i hi).element⟩
  · have hzero : (tableReader f.image c.offset).numBuckets.toNat = 0 := by omega
    rw [hzero] at hgood
    obtain ⟨_, rfl⟩ := pure_of_run hgood
    refine ⟨rfl, ⟨hnonneg, hroom⟩, ?_, ?_, ?_⟩ <;> rw [hzero] <;> intro i hi <;> exact absurd hi (Nat.not_lt_zero i)

end HashTableChecker

namespace IndexTableReader

variable (image : FileImage) (p : Int)

theorem wordHeaderAt_wordBytes : (wordHeaderAt image p).wordBytes = signed (image.slice p.toNat 2) :=
  congrArg signed (image.take_slice p.toNat 2 4)

theorem tableOf_eq :
    p + kWordLenSize + kDocIDTableLengthSize + (wordHeaderAt image p).wordBytes = tableOf image p := by
  have hsum : p + 2 + 4 = p + 6 := Int.add_assoc p 2 4
  rw [tableOf, kWordLenSize, kDocIDTableLengthSize, hsum]
  rfl

end IndexTableReader

namespace IndexTableChecker

open IndexTableReader

theorem checkElement_establishes (c : HashTableChecker) (n p i : Int) :
    Establishes (checkElement c n p i) fun image => Readable image p := by
  constructor
  intro f f' h
  rw [checkElement] at h
  obtain ⟨_, _, hseek, h⟩ := (run_bind_eq_ok handle).mp h
  obtain ⟨hnonneg, rfl⟩ := fseekAsserted_of_run hseek
  obtain ⟨_, _, hreadLen, h⟩ := (run_bind_eq_ok handle).mp h
  obtain ⟨_, rfl, rfl⟩ := freadAsserted_of_run hreadLen
  obtain ⟨_, _, hreadTable, h⟩ := (run_bind_eq_ok handle).mp h
  obtain ⟨hroom, rfl, rfl⟩ := freadAsserted_of_run hreadTable
  obtain ⟨_, _, hadd, h⟩ := (run_bind_eq_ok handle).mp h
  obtain ⟨rfl, _, _, rfl⟩ := addInt_of_run hadd
  obtain ⟨_, _, hadd', h⟩ := (run_bind_eq_ok handle).mp h
  obtain ⟨rfl, _, _, rfl⟩ := addInt_of_run hadd'
  obtain ⟨_, _, hstart, h⟩ := (run_bind_eq_ok handle).mp h
  obtain ⟨rfl, _, hfits, rfl⟩ := addInt_of_run hstart
  obtain ⟨_, _, hend, h⟩ := (run_bind_eq_ok handle).mp h
  obtain ⟨rfl, _, _, rfl⟩ := addInt_of_run hend
  obtain ⟨_, _, hreadWord, h⟩ := (run_bind_eq_ok handle).mp h
  obtain ⟨hsome, hword, rfl⟩ := readArray_of_run hreadWord
  obtain ⟨good, f₁, hgood, h⟩ := (run_bind_eq_ok handle).mp h
  obtain ⟨hall, rfl⟩ := pure_of_run h
  obtain ⟨_, rfl⟩ := Bool.and_eq_true_iff.mp hall
  obtain ⟨himage, hnested⟩ := (HashTableChecker.check_establishes
    (fun n hpos hle i p => DocIDTableChecker.checkElement_establishes hpos hle p i) _ _).of_run _ _ hgood
  have hlen : signed (f.image.slice p.toNat 2) = (wordHeaderAt f.image p).wordBytes :=
    (wordHeaderAt_wordBytes f.image p).symm
  simp only [hlen, tableOf_eq] at hsome hword hfits hnested
  exact ⟨himage, ⟨hnonneg, hroom⟩, hsome, hword, hfits, hnested⟩

end IndexTableChecker

namespace FileIndexChecker

open FileIndexReader (headerOf indexOffset)

theorem foldFile_of_run {rounds : Nat} {bytesLeft : Int} {crc crc' : CRC32} {f f' : OpenFile}
    (h : (foldFile rounds bytesLeft crc).run handle f = .ok (crc', f')) : f'.image = f.image := by
  induction rounds generalizing bytesLeft crc f with
  | zero => cases h
  | succ rounds ih =>
      rw [foldFile] at h
      split at h
      · obtain ⟨_, _, hread, h⟩ := (run_bind_eq_ok handle).mp h
        rw [run_freadUpTo] at hread
        obtain ⟨rfl, rfl⟩ := Prod.mk.inj (Except.ok.inj hread)
        obtain ⟨_, f₁, hassert, h⟩ := (run_bind_eq_ok handle).mp h
        rw [assert] at hassert
        split at hassert
        · obtain ⟨_, rfl⟩ := pure_of_run hassert
          obtain ⟨_, _, hfold, h⟩ := (run_bind_eq_ok handle).mp h
          obtain ⟨_, rfl⟩ := ofRun_of_run hfold
          have hrest := ih h
          exact hrest
        · cases hassert
      · obtain ⟨_, rfl⟩ := pure_of_run h
        rfl

theorem fseek_of_run {offset : Int} {f f' : OpenFile} {b : Bool} (h : (fseek offset).run handle f = .ok (b, f')) :
    f'.image = f.image := by
  rw [run_fseek] at h
  obtain ⟨_, rfl⟩ := Prod.mk.inj (Except.ok.inj h)
  split <;> rfl

theorem checkHeader_of_run {c : FileIndexChecker} {f f' : OpenFile} {b : Bool}
    (h : c.checkHeader.run handle f = .ok (b, f')) : f'.image = f.image := by
  rw [checkHeader] at h
  obtain ⟨_, _, hseek, h⟩ := (run_bind_eq_ok handle).mp h
  obtain ⟨_, rfl⟩ := fseekAsserted_of_run hseek
  obtain ⟨_, _, hreadMagic, h⟩ := (run_bind_eq_ok handle).mp h
  obtain ⟨_, _, rfl⟩ := freadAsserted_of_run hreadMagic
  obtain ⟨_, _, hreadSum, h⟩ := (run_bind_eq_ok handle).mp h
  obtain ⟨_, _, rfl⟩ := freadAsserted_of_run hreadSum
  obtain ⟨_, f₁, hstat, h⟩ := (run_bind_eq_ok handle).mp h
  have himage : f₁.image = f.image := by
    obtain ⟨_, rfl⟩ := Prod.mk.inj (Except.ok.inj hstat)
    rfl
  obtain ⟨_, _, hadd, h⟩ := (run_bind_eq_ok handle).mp h
  obtain ⟨_, _, _, rfl⟩ := addInt_of_run hadd
  obtain ⟨_, f₂, hseek', h⟩ := (run_bind_eq_ok handle).mp h
  obtain ⟨_, f₃, hloop, h⟩ := (run_bind_eq_ok handle).mp h
  obtain ⟨_, rfl⟩ := pure_of_run h
  rw [foldFile_of_run hloop, fseek_of_run hseek', himage]

theorem headerOf_doctableBytes (image : FileImage) : (headerOf image).doctableBytes = signed (image.slice 8 4) := by
  have h₁ := image.drop_slice 0 4 12
  have h₂ := image.drop_slice 4 4 8
  have h₃ := image.take_slice 8 4 4
  change signed ((((image.slice 0 (4 + 12)).drop 4).drop 4).take 4) = _
  rw [h₁]
  change signed (((image.slice 4 (4 + 8)).drop 4).take 4) = _
  rw [h₂]
  change signed ((image.slice 8 (4 + 4)).take 4) = _
  rw [h₃]

theorem new_of_run {c : FileIndexChecker} {f f' : OpenFile} (h : new.run handle f = .ok (c, f')) :
    f'.image = f.image ∧ c.doctableSize = (headerOf f.image).doctableBytes := by
  rw [new] at h
  obtain ⟨ok, f₁, hopen, h⟩ := (run_bind_eq_ok handle).mp h
  have himage : f₁.image = f.image := by
    obtain ⟨image, pos, linked⟩ := f
    cases linked with
    | false =>
        obtain ⟨_, rfl⟩ := Prod.mk.inj (Except.ok.inj hopen)
        rfl
    | true =>
        obtain ⟨_, rfl⟩ := Prod.mk.inj (Except.ok.inj hopen)
        rfl
  obtain ⟨_, f₂, hassert, h⟩ := (run_bind_eq_ok handle).mp h
  rw [assert] at hassert
  split at hassert
  · obtain ⟨_, rfl⟩ := pure_of_run hassert
    obtain ⟨_, f₃, hseek, h⟩ := (run_bind_eq_ok handle).mp h
    rw [run_fseek, if_pos (by decide)] at hseek
    obtain ⟨_, rfl⟩ := Prod.mk.inj (Except.ok.inj hseek)
    obtain ⟨_, _, hreadDocs, h⟩ := (run_bind_eq_ok handle).mp h
    obtain ⟨_, rfl, rfl⟩ := freadAsserted_of_run hreadDocs
    obtain ⟨_, _, hreadIndex, h⟩ := (run_bind_eq_ok handle).mp h
    obtain ⟨_, _, rfl⟩ := freadAsserted_of_run hreadIndex
    obtain ⟨rfl, rfl⟩ := pure_of_run h
    refine ⟨himage, ?_⟩
    rw [headerOf_doctableBytes, ← himage]
    rfl
  · cases hassert

/-- Both tables of a file that passes are sound. -/
theorem sound_of_run {f f' : OpenFile} (h : hw3fsck.run handle f = .ok (true, f')) :
    DocTableReader.SoundTable f.image IndexFileHeader.sizeof ∧
      IndexTableReader.SoundTable f.image (indexOffset (headerOf f.image)) := by
  rw [hw3fsck] at h
  obtain ⟨c, f₁, hnew, h⟩ := (run_bind_eq_ok handle).mp h
  obtain ⟨himage₁, hsize⟩ := new_of_run hnew
  rw [checkFile] at h
  obtain ⟨_, f₂, hheader, h⟩ := (run_bind_eq_ok handle).mp h
  have himage₂ := checkHeader_of_run hheader
  obtain ⟨docs, f₃, hdocs, h⟩ := (run_bind_eq_ok handle).mp h
  obtain ⟨index, f₄, hindex, h⟩ := (run_bind_eq_ok handle).mp h
  obtain ⟨hall, rfl⟩ := pure_of_run h
  obtain ⟨hfirst, rfl⟩ := Bool.and_eq_true_iff.mp hall
  obtain ⟨_, rfl⟩ := Bool.and_eq_true_iff.mp hfirst
  obtain ⟨himage₃, hdocTable⟩ := (HashTableChecker.check_establishes
    (fun n hpos hle i p => DocTableChecker.checkElement_establishes hpos hle p i) _ _).of_run _ _ hdocs
  rw [checkIndexTable] at hindex
  obtain ⟨offset, _, hadd, hindex⟩ := (run_bind_eq_ok handle).mp hindex
  obtain ⟨hoffset, hlow, hhigh, rfl⟩ := addInt_of_run hadd
  obtain ⟨_, hindexTable⟩ := (HashTableChecker.check_establishes
    (P := fun _ _ p image => IndexTableReader.Readable image p)
    (fun n _ _ i p => IndexTableChecker.checkElement_establishes _ n p i) _ _).of_run _ _ hindex
  have hnonneg := hindexTable.header.1
  have hsame : indexOffset (headerOf f.image) = offset := by
    have hint : int32 offset = offset := int32_of_lt hnonneg (Int.lt_of_le_of_lt hhigh (by decide))
    rw [indexOffset, ← hsize]
    exact (congrArg int32 hoffset.symm).trans hint
  rw [himage₂, himage₁] at hdocTable
  rw [himage₃, himage₂, himage₁] at hindexTable
  rw [hsame]
  exact ⟨hdocTable, hindexTable⟩

/-- The lookups find every element that is stored in the three kinds of
tables: they return what this element has stored for its key. -/
structure AllFound (image : FileImage) : Prop where
  docs : ∀ p ∈ elements image IndexFileHeader.sizeof,
    Returns image (DocTableReader.lookupDocID (tableReader image IndexFileHeader.sizeof)
      (DocTableReader.elementAt image p).docId) (some (DocTableReader.nameAt image p))
  postings : ∀ w ∈ elements image (indexOffset (headerOf image)),
    ∀ p ∈ elements image (IndexTableReader.tableOf image w),
      Returns image (DocIDTableReader.lookupDocID (tableReader image (IndexTableReader.tableOf image w))
        (DocIDTableReader.elementAt image p).docId) (some (DocIDTableReader.positionsAt image p))
  words : ∀ p ∈ elements image (indexOffset (headerOf image)),
    Returns image (IndexTableReader.lookupWord (tableReader image (indexOffset (headerOf image)))
      (IndexTableReader.wordAt image p)) (some (tableReader image (IndexTableReader.tableOf image p)))

/-- No docID is in a table with two contents, and no two elements have one
word. -/
structure NoDuplicateKeys (image : FileImage) : Prop where
  docs : Unambiguous (elements image IndexFileHeader.sizeof) (fun p => (DocTableReader.elementAt image p).docId)
    (DocTableReader.nameAt image)
  postings : ∀ w ∈ elements image (indexOffset (headerOf image)),
    Unambiguous (elements image (IndexTableReader.tableOf image w))
      (fun p => (DocIDTableReader.elementAt image p).docId) (DocIDTableReader.positionsAt image)
  words : Unambiguous (elements image (indexOffset (headerOf image))) (IndexTableReader.wordAt image) id

/-- In a file that passes, what can be out of reach is a word in a bucket that
is not the one of its hash, and an element whose key another one has. -/
theorem checked_allFound {image : FileImage} {pos : Nat} {linked : Bool} {file : OpenFile}
    (h : hw3fsck.run handle ⟨image, pos, linked⟩ = .ok (true, file)) :
    AllFound image ↔ NoDuplicateKeys image ∧ ∀ p ∈ elements image (indexOffset (headerOf image)),
      IndexTableReader.Reachable image (indexOffset (headerOf image)) p := by
  obtain ⟨hdocs, hwords⟩ := sound_of_run h
  have hreadable : ∀ w ∈ elements image (indexOffset (headerOf image)), IndexTableReader.Readable image w := by
    intro w hw
    obtain ⟨i, hi, hchain⟩ := mem_elements.mp hw
    exact hwords.element i hi w hchain
  have hdocsOwn := own_iff_unambiguous fun p hp => hdocs.lookupDocID hp
  have hpostingsOwn := fun w hw => own_iff_unambiguous fun p hp => (hreadable w hw).table.lookupDocID (p := p) hp
  constructor
  · intro hfound
    have hreach : ∀ p ∈ elements image (indexOffset (headerOf image)),
        IndexTableReader.Reachable image (indexOffset (headerOf image)) p := fun p hp =>
      (hwords.lookupWord_iff hp).mp ⟨p, hp, rfl, hfound.words p hp⟩
    have hwordsOwn := own_iff_unambiguous fun p hp => (hwords.lookupWord_iff hp).mpr (hreach p hp)
    refine ⟨⟨hdocsOwn.mp hfound.docs, fun w hw => (hpostingsOwn w hw).mp (hfound.postings w hw), ?_⟩, hreach⟩
    intro p hp q hq hword
    exact (hreadable p hp).eq_of_table (hreadable q hq) hword (hwordsOwn.mp hfound.words p hp q hq hword)
  · rintro ⟨hone, hreach⟩
    have hwordsOwn := own_iff_unambiguous fun p hp => (hwords.lookupWord_iff hp).mpr (hreach p hp)
    refine ⟨hdocsOwn.mpr hone.docs, fun w hw => (hpostingsOwn w hw).mpr (hone.postings w hw), hwordsOwn.mpr ?_⟩
    intro p hp q hq hword
    exact congrArg (fun p => tableReader image (IndexTableReader.tableOf image p)) (hone.words p hp q hq hword)

/-- An index file of no documents and of the word a, with these records for the
two buckets of its index table. -/
def oneWord (checksum : UInt32) (first second : BucketRecord) : FileImage :=
  FileIndexReader.tablesFile checksum (field32 1 ++ (field32 0 ++ field32 28))
    (field32 2 ++ (first.toDisk ++ (second.toDisk ++ (field32 52 ++ ((WordPostingsHeader.mk 1 12).toDisk ++
      (ascii ['a'] ++ (field32 1 ++ (field32 0 ++ field32 71))))))))

theorem run_of_map (image : FileImage)
    (h : (hw3fsck.run handle ⟨image, 0, true⟩).map Prod.fst = .ok true) :
    ∃ file, hw3fsck.run handle ⟨image, 0, true⟩ = .ok (true, file) := by
  cases hrun : hw3fsck.run handle ⟨image, 0, true⟩ with
  | error e =>
      rw [hrun] at h
      cases h
  | ok r =>
      rw [hrun] at h
      obtain ⟨b, file⟩ := r
      obtain rfl : b = true := Except.ok.inj h
      exact ⟨file, rfl⟩

def placedWord : FileImage := oneWord 3892767429 ⟨1, 48⟩ ⟨0, 71⟩

theorem checked_allFound_small : ∃ file, hw3fsck.run handle ⟨placedWord, 0, true⟩ = .ok (true, file) ∧
    AllFound placedWord := by
  obtain ⟨file, hrun⟩ := run_of_map placedWord (by decide +kernel)
  have helements : elements placedWord (indexOffset (headerOf placedWord)) = [52] := by decide +kernel
  have hdocs : elements placedWord IndexFileHeader.sizeof = [] := by decide +kernel
  have hpostings : elements placedWord (IndexTableReader.tableOf placedWord 52) = [] := by decide +kernel
  refine ⟨file, hrun, (checked_allFound hrun).mpr ⟨⟨?_, ?_, ?_⟩, ?_⟩⟩
  · simp [Unambiguous, hdocs]
  · rw [helements]
    simp [Unambiguous, hpostings]
  · rw [helements]
    simp [Unambiguous]
  · intro p hp
    rw [helements] at hp
    obtain rfl := List.mem_singleton.mp hp
    exact ⟨0, by decide +kernel, 52, by decide +kernel, rfl⟩

def misplacedWord : FileImage := oneWord 3938095048 ⟨0, 48⟩ ⟨1, 48⟩

/-- The checker lets a word pass that is in the other bucket. -/
theorem misplacedWord_passes : ∃ file, hw3fsck.run handle ⟨misplacedWord, 0, true⟩ = .ok (true, file) ∧
    ¬AllFound misplacedWord := by
  obtain ⟨file, hrun⟩ := run_of_map misplacedWord (by decide +kernel)
  have helement : 52 ∈ elements misplacedWord (indexOffset (headerOf misplacedWord)) := by decide +kernel
  refine ⟨file, hrun, ?_⟩
  intro hfound
  obtain ⟨i, hi, q, hq, _⟩ := ((sound_of_run hrun).2.lookupWord_iff helement).mp
    ⟨52, helement, rfl, hfound.words 52 helement⟩
  have hnum : (tableReader misplacedWord (indexOffset (headerOf misplacedWord))).bucketNum
      (hashString (IndexTableReader.wordAt misplacedWord 52)) = .ok 0 := by
    decide +kernel
  have hnil : chainOf misplacedWord (bucketAt misplacedWord (indexOffset (headerOf misplacedWord)) 0) = [] := by
    decide +kernel
  obtain rfl := Except.ok.inj (hnum.symm.trans hi)
  rw [hnil] at hq
  cases hq

end FileIndexChecker

end SearchEngine
