import SearchEngine.IndexValidation

/-! What WriteIndex makes of names and words whose length does not fit in 16
bits. -/

namespace SearchEngine

open FileProgram Layout Program OpenFile

namespace FileProgram

variable {α β : Type} {x : FileProgram α} {k : α → FileProgram β} {a : α} {o : Except Fault β}

/-- How the program ends on every file. -/
def Yields (p : FileProgram α) (o : Except Fault α) : Prop := ∀ f, (p.run handle f).map Prod.fst = o

theorem yields_ok : Yields x (.ok a) ↔ ∀ f, ∃ f', x.run handle f = .ok (a, f') := by
  constructor
  · intro h f
    have hf := h f
    cases hrun : x.run handle f with
    | error e =>
        rw [hrun] at hf
        cases hf
    | ok r =>
        rw [hrun] at hf
        obtain rfl := Except.ok.inj hf
        exact ⟨r.2, rfl⟩
  · intro h f
    obtain ⟨f', hrun⟩ := h f
    rw [hrun]
    rfl

theorem yields_error {e : Fault} : Yields x (.error e) ↔ ∀ f, x.run handle f = .error e := by
  constructor
  · intro h f
    have hf := h f
    cases hrun : x.run handle f with
    | error e' =>
        rw [hrun] at hf
        exact congrArg Except.error (Except.error.inj hf)
    | ok r =>
        rw [hrun] at hf
        cases hf
  · intro h f
    rw [h f]
    rfl

theorem Yields.bind (hx : Yields x (.ok a)) (hk : Yields (k a) o) : Yields (x >>= k) o := by
  intro f
  obtain ⟨f', hrun⟩ := yields_ok.mp hx f
  rw [run_bind, hrun]
  exact hk f'

theorem Yields.error_bind {e : Fault} (hx : Yields x (.error e)) : Yields (x >>= k) (.error e) := by
  intro f
  rw [run_bind, yields_error.mp hx f]
  rfl

theorem yields_pure (a : α) : Yields (pure a) (.ok a) := fun _ => rfl

theorem yields_fseek (offset : Int) : Yields (fseek offset) (.ok (decide (0 ≤ offset))) := by
  intro f
  rw [run_fseek]
  rfl

theorem yields_fwrite (bytes : Bytes) : Yields (fwrite bytes) (.ok true) := fun _ => rfl

theorem yields_addInt {a b : Int} (ha : 0 ≤ a) (hb : 0 ≤ b) (h : a + b < 2 ^ 31) : Yields (addInt a b) (.ok (a + b)) :=
  yields_ok.mpr fun f => ⟨f, run_addInt ha hb h f⟩

theorem Writes.yields {off : Nat} {bytes : Bytes} (h : Writes off bytes x a) : Yields x (.ok a) := by
  apply yields_ok.mpr
  intro f
  obtain ⟨pos', hrun⟩ := h f.image f.pos f.linked
  exact ⟨_, hrun⟩

end FileProgram

namespace WriteIndex

variable {V : Type} {F : ElementFormat V} {fn : WriteElementFn V}

/-- Where an element stops the writer, by a failure or a fault, it stops the
loops around it as well. -/
theorem writeElements_stops {kv : HTKeyValue V} {stop : Except Fault Unit} (post pre : List (HTKeyValue V)) (rp p : Nat)
    (hpre : ∀ kv ∈ pre, Serializes fn F kv) (hroom : rp + 4 * pre.length < 2 ^ 31)
    (hfit : p + total F.size pre < 2 ^ 31)
    (hstop : Yields (fn ((p + total F.size pre : Nat) : Int) kv) (stop.map fun _ => kFailedWrite)) :
    Yields (writeElements fn (pre ++ kv :: post) rp p) (stop.map fun _ => none) := by
  induction pre generalizing rp p with
  | nil =>
      apply (yields_fseek _).bind
      simp only [Int.natCast_nonneg, decide_true, Bool.not_true, Bool.false_eq_true, if_false]
      apply (yields_fwrite _).bind
      simp only [Bool.not_true, Bool.false_eq_true, if_false]
      cases stop with
      | error e => exact Yields.error_bind hstop
      | ok _ => exact Yields.bind hstop (yields_pure none)
  | cons kv' pre ih =>
      simp only [List.length_cons, total_cons] at hroom hfit hstop
      have helem := (hpre kv' (by simp) p (by omega)).yields
      have hrec : int32 ((rp : Int) + ElementPositionRecord.sizeof) = ((rp + 4 : Nat) : Int) := by
        rw [ElementPositionRecord.sizeof, int32_of_lt] <;> omega
      apply (yields_fseek _).bind
      simp only [Int.natCast_nonneg, decide_true, Bool.not_true, Bool.false_eq_true, if_false]
      apply (yields_fwrite _).bind
      simp only [Bool.not_true, Bool.false_eq_true, if_false]
      apply helem.bind
      rw [if_neg (by omega)]
      apply (yields_addInt (Int.natCast_nonneg p) (Int.natCast_nonneg (F.size kv')) (by omega)).bind
      rw [hrec]
      exact ih (rp + 4) (p + F.size kv') (fun kv hkv => hpre kv (by simp [hkv])) (by omega) (by omega)
        (by rwa [Nat.add_assoc])

theorem writeHTBucket_stops {li : LinkedList (HTKeyValue V)} {kv : HTKeyValue V} {stop : Except Fault Unit}
    {pre post : List (HTKeyValue V)} (hli : li.payloads = pre ++ kv :: post) (off : Nat)
    (hpre : ∀ kv ∈ pre, Serializes fn F kv) (hfit : off + 4 * li.numElements + total F.size pre < 2 ^ 31)
    (hstop : Yields (fn ((off + 4 * li.numElements + total F.size pre : Nat) : Int) kv)
      (stop.map fun _ => kFailedWrite)) :
    Yields (writeHTBucket fn off li) (stop.map fun _ => kFailedWrite) := by
  have hlen := li.length_payloads
  rw [hli, List.length_append, List.length_cons] at hlen
  have hpos : int32 ((off : Int) + ElementPositionRecord.sizeof * li.numElements) =
      ((off + 4 * li.numElements : Nat) : Int) := by
    rw [ElementPositionRecord.sizeof, int32_of_lt] <;> omega
  have hloop := writeElements_stops post pre off (off + 4 * li.numElements) hpre (by omega) hfit hstop
  rw [writeHTBucket, if_neg (by omega), hpos, hli]
  cases stop with
  | error e => exact Yields.error_bind hloop
  | ok _ => exact Yields.bind hloop (yields_pure kFailedWrite)

theorem writeBuckets_stops {li : LinkedList (HTKeyValue V)} {stop : Except Fault Unit}
    (hne : li.numElements ≠ 0) (lis' lis : List (LinkedList (HTKeyValue V))) (rp p : Nat)
    (hlis : ∀ li ∈ lis, ∀ kv ∈ li.payloads, Serializes fn F kv) (hroom : rp + 8 * lis.length + 8 < 2 ^ 31)
    (hfit : p + total F.bucketSize lis < 2 ^ 31)
    (hstop : Yields (writeHTBucket fn ((p + total F.bucketSize lis : Nat) : Int) li)
      (stop.map fun _ => kFailedWrite)) :
    Yields (writeBuckets fn (lis ++ li :: lis') rp p) (stop.map fun _ => none) := by
  induction lis generalizing rp p with
  | nil =>
      apply (writeHTBucketRecord_writes rp li.numElements p).yields.bind
      rw [if_neg (by decide)]
      apply (yields_addInt (Int.natCast_nonneg rp) (by decide : (0 : Int) ≤ 8) (by omega)).bind
      rw [if_neg hne]
      cases stop with
      | error e => exact Yields.error_bind hstop
      | ok _ => exact Yields.bind hstop (yields_pure none)
  | cons li' lis ih =>
      simp only [List.length_cons, total_cons] at hroom hfit hstop
      apply (writeHTBucketRecord_writes rp li'.numElements p).yields.bind
      rw [if_neg (by decide)]
      apply (yields_addInt (Int.natCast_nonneg rp) (by decide : (0 : Int) ≤ 8) (by omega)).bind
      by_cases hempty : li'.numElements = 0
      · rw [F.bucketSize_empty hempty, Nat.zero_add] at hfit hstop
        rw [if_pos hempty, show ((rp : Int) + 8) = ((rp + 8 : Nat) : Int) by omega]
        exact ih (rp + 8) p (fun li hli => hlis li (by simp [hli])) (by omega) hfit hstop
      · rw [if_neg hempty]
        apply (writeHTBucket_writes li' (hlis li' (by simp)) p (by omega)).yields.bind
        rw [if_neg (by rw [kFailedWrite]; omega)]
        apply (yields_addInt (Int.natCast_nonneg p) (Int.natCast_nonneg (F.bucketSize li')) (by omega)).bind
        rw [show ((rp : Int) + 8) = ((rp + 8 : Nat) : Int) by omega,
          show ((p : Int) + (F.bucketSize li' : Int)) = ((p + F.bucketSize li' : Nat) : Int) by omega]
        exact ih (rp + 8) (p + F.bucketSize li') (fun li hli => hlis li (by simp [hli])) (by omega) (by omega)
          (by rwa [Nat.add_assoc])

/-- The element is at this place when the ones that are laid out before it
are all fine. -/
structure Reaches (F : ElementFormat V) (fine : HTKeyValue V → Prop) (off : Nat) (t : HashTable V)
    (kv : HTKeyValue V) (p : Nat) : Prop where
  split : ∃ lis li lis' pre post, t.buckets = lis ++ li :: lis' ∧ li.payloads = pre ++ kv :: post ∧
    (∀ li' ∈ lis, ∀ kv' ∈ li'.payloads, fine kv') ∧ (∀ kv' ∈ pre, fine kv') ∧
    p = off + 4 + 8 * t.numBuckets + total F.bucketSize lis + 4 * li.numElements + total F.size pre

theorem writeHashTable_stops {t : HashTable V} {fine : HTKeyValue V → Prop} {kv : HTKeyValue V}
    {stop : Except Fault Unit} {off p : Nat} (hreach : Reaches F fine off t kv p)
    (hfine : ∀ kv, fine kv → Serializes fn F kv) (hfit : p < 2 ^ 31)
    (hstop : Yields (fn (p : Int) kv) (stop.map fun _ => kFailedWrite)) :
    Yields (writeHashTable fn off t) (stop.map fun _ => kFailedWrite) := by
  obtain ⟨lis, li, lis', pre, post, hbuckets, hli, hlis, hpre, rfl⟩ := hreach.split
  have hlen := li.length_payloads
  rw [hli, List.length_append, List.length_cons] at hlen
  have hsize := t.size
  rw [hbuckets, List.length_append, List.length_cons] at hsize
  have hne : li.numElements ≠ 0 := by omega
  have hroom : off + 4 + 8 * lis.length + 8 < 2 ^ 31 := by omega
  have hbefore : off + 4 + 8 * t.numBuckets + total F.bucketSize lis < 2 ^ 31 := by omega
  have hrp : int32 ((off : Int) + BucketListHeader.sizeof) = ((off + 4 : Nat) : Int) := by
    rw [BucketListHeader.sizeof, int32_of_lt] <;> omega
  have hp : int32 ((off : Int) + BucketListHeader.sizeof + t.numBuckets * BucketRecord.sizeof) =
      ((off + 4 + 8 * t.numBuckets : Nat) : Int) := by
    rw [BucketListHeader.sizeof, BucketRecord.sizeof, int32_of_lt] <;> omega
  have hbucket := writeHTBucket_stops hli (off + 4 + 8 * t.numBuckets + total F.bucketSize lis)
    (fun kv hkv => hfine kv (hpre kv hkv)) hfit hstop
  have hloop := writeBuckets_stops hne lis' lis (off + 4) (off + 4 + 8 * t.numBuckets)
    (fun li hli kv hkv => hfine kv (hlis li hli kv hkv)) hroom hbefore hbucket
  apply (yields_fseek _).bind
  simp only [Int.natCast_nonneg, decide_true, Bool.not_true, Bool.false_eq_true, if_false]
  apply (yields_fwrite _).bind
  simp only [Bool.not_true, Bool.false_eq_true, if_false]
  rw [hrp, hp, hbuckets]
  cases stop with
  | error e => exact Yields.error_bind hloop
  | ok _ => exact Yields.bind hloop (yields_pure kFailedWrite)

theorem exists_first {α : Type} {P : α → Prop} {as : List α} (h : ∃ a ∈ as, ¬P a) :
    ∃ pre a post, as = pre ++ a :: post ∧ (∀ b ∈ pre, P b) ∧ ¬P a := by
  classical
  obtain ⟨a, ha, hnot⟩ := h
  have hsome : (as.find? fun a => ¬P a).isSome := List.find?_isSome.mpr ⟨a, ha, decide_eq_true hnot⟩
  obtain ⟨b, hfind⟩ := Option.isSome_iff_exists.mp hsome
  obtain ⟨hb, pre, post, hsplit, hpre⟩ := List.find?_eq_some_iff_append.mp hfind
  refine ⟨pre, b, post, hsplit, ?_, of_decide_eq_true hb⟩
  intro c hc
  simpa using hpre c hc

theorem exists_reaches {t : HashTable V} {fine : HTKeyValue V → Prop} (F : ElementFormat V) (off : Nat)
    (h : ∃ kv ∈ t.pairs, ¬fine kv) : ∃ kv p, Reaches F fine off t kv p ∧ ¬fine kv := by
  obtain ⟨kv₀, hkv₀, hnot⟩ := h
  obtain ⟨li₀, hli₀, hin⟩ := List.mem_flatMap.mp hkv₀
  obtain ⟨lis, li, lis', hbuckets, hlis, hbad⟩ := exists_first (P := fun li => ∀ kv ∈ li.payloads, fine kv)
    ⟨li₀, hli₀, fun hall => hnot (hall kv₀ hin)⟩
  obtain ⟨kv₁, hkv₁, hnot₁⟩ : ∃ kv ∈ li.payloads, ¬fine kv := by
    by_contra hall
    apply hbad
    intro kv hkv
    by_contra hkv'
    exact hall ⟨kv, hkv, hkv'⟩
  obtain ⟨pre, kv, post, hli, hpre, hkv⟩ := exists_first ⟨kv₁, hkv₁, hnot₁⟩
  exact ⟨kv, _, ⟨lis, li, lis', pre, post, hbuckets, hli, hlis, hpre, rfl⟩, hkv⟩

theorem Reaches.le {t : HashTable V} {fine : HTKeyValue V → Prop} {kv : HTKeyValue V} {off p : Nat}
    (h : Reaches F fine off t kv p) : p + F.size kv ≤ off + F.tableSize t := by
  obtain ⟨lis, li, lis', pre, post, hbuckets, hli, _, _, rfl⟩ := h.split
  have htable := F.tableSize_buckets t
  have hbucket : F.bucketSize li = 4 * li.numElements + total F.size li.payloads := rfl
  rw [hbuckets, total_append, total_cons] at htable
  rw [hli, total_append, total_cons] at hbucket
  omega

theorem docname_refused {kv : HTKeyValue Bytes} (h : int16 kv.value.length = 0) (p : Nat) :
    Yields (writeDocidToDocnameFn p kv) (.ok kFailedWrite) := by
  simp only [writeDocidToDocnameFn, h]
  apply (yields_fseek _).bind
  simp only [Int.natCast_nonneg, decide_true, Bool.not_true, Bool.false_eq_true, if_false]
  apply (yields_fwrite _).bind
  exact yields_pure kFailedWrite

theorem docname_faults {kv : HTKeyValue Bytes} (h : int16 kv.value.length < 0) (p : Nat) :
    Yields (writeDocidToDocnameFn p kv) (.error .badAccess) := by
  simp only [writeDocidToDocnameFn]
  generalize int16 kv.value.length = n at h
  apply (yields_fseek _).bind
  simp only [Int.natCast_nonneg, decide_true, Bool.not_true, Bool.false_eq_true, if_false]
  apply (yields_fwrite _).bind
  rw [fwriteItem, if_pos h]
  exact fun _ => rfl

theorem word_refused {kv : HTKeyValue WordPostings} {p : Nat} (h : (p : Int) + 6 + int16 kv.value.word.length < 0) :
    Yields (writeWordToPostingsFn p kv) (.ok kFailedWrite) := by
  have hge := int16_ge kv.value.word.length
  have hoff : int32 ((p : Int) + WordPostingsHeader.sizeof + int16 kv.value.word.length) =
      (p : Int) + 6 + int16 kv.value.word.length := by
    rw [WordPostingsHeader.sizeof, int32, Int.bmod_eq_of_le_mul_two] <;> omega
  simp only [writeWordToPostingsFn, hoff]
  generalize int16 kv.value.word.length = n at h
  have htable : Yields (writeHashTable writeDocIDToPositionListFn ((p : Int) + 6 + n) kv.value.postings)
      (.ok kFailedWrite) := by
    apply (yields_fseek _).bind
    rw [decide_eq_false (by omega)]
    exact yields_pure kFailedWrite
  apply htable.bind
  exact yields_pure kFailedWrite

theorem word_faults {kv : HTKeyValue WordPostings} {p : Nat} (h : int16 kv.value.word.length < 0)
    (hin : 0 ≤ (p : Int) + 6 + int16 kv.value.word.length)
    (hfit : p + 6 + postingFormat.tableSize kv.value.postings < 2 ^ 31) :
    Yields (writeWordToPostingsFn p kv) (.error .badAccess) := by
  have hoff : int32 ((p : Int) + WordPostingsHeader.sizeof + int16 kv.value.word.length) =
      ((((p : Int) + 6 + int16 kv.value.word.length).toNat : Nat) : Int) := by
    rw [WordPostingsHeader.sizeof, int32_of_lt] <;> omega
  simp only [writeWordToPostingsFn, hoff]
  generalize int16 kv.value.word.length = n at h hin
  have htable := writeHashTable_writes kv.value.postings (fun p _ => posting_serializes p)
    ((p : Int) + 6 + n).toNat (by omega)
  have hseek : (0 : Int) ≤ (p : Int) + WordPostingsHeader.sizeof := by omega
  apply htable.yields.bind
  rw [if_neg (by rw [kFailedWrite]; omega)]
  apply (yields_fseek _).bind
  simp only [Int.natCast_nonneg, decide_true, Bool.not_true, Bool.false_eq_true, if_false]
  apply (yields_fwrite _).bind
  simp only [Bool.not_true, Bool.false_eq_true, if_false]
  apply (yields_fseek _).bind
  simp only [hseek, decide_true, Bool.not_true, Bool.false_eq_true, if_false]
  rw [fwriteChars, if_pos h]
  exact fun _ => rfl

def NameWritable (kv : HTKeyValue Bytes) : Prop := 0 < int16 kv.value.length

def WordWritable (kv : HTKeyValue WordPostings) : Prop := 0 ≤ int16 kv.value.word.length

section

variable {mi : MemIndex} {dt : DocTable} {p : Nat}

theorem writeIndex_stops_docs (stop : Except Fault Unit) {kv : HTKeyValue Bytes}
    (hreach : Reaches cutDocFormat NameWritable 16 dt.idToName kv p) (hfit : p < 2 ^ 31)
    (hstop : Yields (writeDocidToDocnameFn p kv) (stop.map fun _ => kFailedWrite)) (f : OpenFile) :
    ((writeIndex mi dt).run handle f).map (fun r => (r.1, r.2.linked)) = stop.map fun _ => (kFailedWrite, false) := by
  have htable : Yields (writeDocTable dt ((16 : Nat) : Int)) (stop.map fun _ => kFailedWrite) :=
    writeHashTable_stops hreach (fun _ => docname_cut) hfit hstop
  simp only [writeIndex, IndexFileHeader.sizeof, run_bind, run_create, ok_bind, Bool.not_true, Bool.false_eq_true,
    if_false]
  cases stop with
  | error e =>
      rw [yields_error.mp htable]
      rfl
  | ok _ =>
      obtain ⟨f', hrun⟩ := yields_ok.mp htable ⟨.empty, 0, true⟩
      rw [hrun, ok_bind, if_pos rfl]
      rfl

theorem writeDocTable_cut (hnames : ∀ kv ∈ dt.idToName.pairs, NameWritable kv)
    (hfit : 16 + cutDocFormat.tableSize dt.idToName < 2 ^ 31) :
    Writes 16 (cutDocFormat.tableBytes 16 dt.idToName) (writeDocTable dt ((16 : Nat) : Int))
      (cutDocFormat.tableSize dt.idToName) :=
  writeHashTable_writes dt.idToName (fun kv hkv => docname_cut (hnames kv hkv)) 16 hfit

theorem writeIndex_stops_words (stop : Except Fault Unit) (hnames : ∀ kv ∈ dt.idToName.pairs, NameWritable kv)
    {kv : HTKeyValue WordPostings}
    (hreach : Reaches cutWordFormat WordWritable (16 + cutDocFormat.tableSize dt.idToName) mi kv p)
    (hfit : p < 2 ^ 31) (hstop : Yields (writeWordToPostingsFn p kv) (stop.map fun _ => kFailedWrite)) (f : OpenFile) :
    ((writeIndex mi dt).run handle f).map (fun r => (r.1, r.2.linked)) = stop.map fun _ => (kFailedWrite, false) := by
  have hle : 16 + cutDocFormat.tableSize dt.idToName ≤ p := by
    obtain ⟨lis, li, lis', pre, post, _, _, _, _, rfl⟩ := hreach.split
    omega
  obtain ⟨pos₁, hdocs⟩ := writeDocTable_cut hnames (by omega) FileImage.empty 0 true
  have htable : Yields (writeMemIndex mi ((16 + cutDocFormat.tableSize dt.idToName : Nat) : Int))
      (stop.map fun _ => kFailedWrite) :=
    writeHashTable_stops hreach (fun _ => word_cut) hfit hstop
  have hadd := run_addInt (by decide : (0 : Int) ≤ (16 : Nat))
    (Int.natCast_nonneg (cutDocFormat.tableSize dt.idToName)) (by omega)
  have hcast : ((16 : Nat) : Int) + (cutDocFormat.tableSize dt.idToName : Int) =
      ((16 + cutDocFormat.tableSize dt.idToName : Nat) : Int) := by omega
  simp only [writeIndex, IndexFileHeader.sizeof, run_bind, run_create, ok_bind, Bool.not_true, Bool.false_eq_true,
    if_false, hdocs]
  rw [if_neg (by rw [kFailedWrite]; omega)]
  simp only [run_bind, hadd, ok_bind, hcast]
  cases stop with
  | error e =>
      rw [yields_error.mp htable]
      rfl
  | ok _ =>
      obtain ⟨f', hrun⟩ := yields_ok.mp htable
        ⟨FileImage.empty.patch 16 (cutDocFormat.tableBytes 16 dt.idToName), pos₁, true⟩
      rw [hrun, ok_bind, if_pos rfl]
      rfl

def cutTables (mi : MemIndex) (dt : DocTable) : Bytes :=
  cutDocFormat.tableBytes 16 dt.idToName ++ cutWordFormat.tableBytes (16 + cutDocFormat.tableSize dt.idToName) mi

theorem length_cutTables (mi : MemIndex) (dt : DocTable) :
    (cutTables mi dt).length = cutDocFormat.tableSize dt.idToName + cutWordFormat.tableSize mi := by
  rw [cutTables, List.length_append, ElementFormat.length_tableBytes, ElementFormat.length_tableBytes]

/-- The file has the two tables with the lengths that the 16-bit fields have
room for. -/
def CutFile (mi : MemIndex) (dt : DocTable) (image : FileImage) : Prop :=
  Headed (cutDocFormat.tableSize dt.idToName) (cutWordFormat.tableSize mi) (cutTables mi dt) image

theorem writeIndex_cutFile (hnames : ∀ kv ∈ dt.idToName.pairs, NameWritable kv)
    (hwords : ∀ kv ∈ mi.pairs, WordWritable kv) (hfit : cutSize mi dt < 2 ^ 31) (f : OpenFile) :
    ∃ file : OpenFile, (writeIndex mi dt).run handle f = .ok ((cutSize mi dt : Int), file) ∧ file.linked = true ∧
      CutFile mi dt file.image := by
  have htotal : cutSize mi dt = 16 + cutDocFormat.tableSize dt.idToName + cutWordFormat.tableSize mi := rfl
  have hlen := length_cutTables mi dt
  obtain ⟨pos₁, hdocs⟩ := writeDocTable_cut hnames (by omega) FileImage.empty 0 true
  have htables := writeHashTable_writes mi (fun kv hkv => word_cut (hwords kv hkv))
    (16 + cutDocFormat.tableSize dt.idToName) (by omega)
  obtain ⟨pos₂, hindex⟩ := htables (FileImage.empty.patch 16 (cutDocFormat.tableBytes 16 dt.idToName)) pos₁ true
  have hpatch := FileImage.patch_append FileImage.empty 16 (cutDocFormat.tableBytes 16 dt.idToName)
    (cutWordFormat.tableBytes (16 + cutDocFormat.tableSize dt.idToName) mi)
  rw [ElementFormat.length_tableBytes, ← cutTables] at hpatch
  rw [hpatch] at hindex
  obtain ⟨checksum, hsum, _⟩ := CRC32.checksum_run (cutTables mi dt)
  obtain ⟨crc, hfold, hret⟩ := Run.bind_eq_ok.mp hsum
  obtain rfl : crc.getFinalCRC.1 = checksum := by simpa using hret
  obtain ⟨pos₃, hheader⟩ := writeHeader_run (by omega) hlen hfold
    (FileImage.holds_patch FileImage.empty 16 (cutTables mi dt)) pos₂ true
  have hcomm := FileImage.patch_append FileImage.empty 0 (IndexFileHeader.mk kMagicNumber crc.getFinalCRC.1
    (cutDocFormat.tableSize dt.idToName) (cutWordFormat.tableSize mi)).toDisk (cutTables mi dt)
  rw [IndexFileHeader.length_toDisk, Nat.zero_add, FileImage.patch_comm (by simp)] at hcomm
  rw [hcomm] at hheader
  exact ⟨_, run_writeIndex (by omega) (run_create f) hdocs hindex hheader (run_close _), rfl,
    headed_patch (htotal ▸ hfit) hlen hsum⟩

theorem writeIndex_cut (hnames : ∀ kv ∈ dt.idToName.pairs, NameWritable kv)
    (hwords : ∀ kv ∈ mi.pairs, WordWritable kv)
    (hfit : cutSize mi dt < 2 ^ 31) (f : OpenFile) :
    ∃ (size : Nat) (file : OpenFile), (writeIndex mi dt).run handle f = .ok ((size : Int), file) ∧
      file.linked = true := by
  obtain ⟨file, hrun, hlinked, _⟩ := writeIndex_cutFile hnames hwords hfit f
  exact ⟨_, file, hrun, hlinked⟩

/-- A name or a word whose length cannot be written stops WriteIndex. -/
theorem writable_of_written (hsmall : cutSize mi dt < 2 ^ 31) {f file : OpenFile} {size : Int}
    (hrun : (writeIndex mi dt).run handle f = .ok (size, file)) (hsize : 0 ≤ size) :
    (∀ kv ∈ dt.idToName.pairs, NameWritable kv) ∧ ∀ kv ∈ mi.pairs, WordWritable kv := by
  have htotal : cutSize mi dt = 16 + cutDocFormat.tableSize dt.idToName + cutWordFormat.tableSize mi := rfl
  have hgoes (stop : Except Fault Unit) (hstop : ((writeIndex mi dt).run handle f).map
      (fun r => (r.1, r.2.linked)) = stop.map fun _ => (kFailedWrite, false)) : False := by
    rw [hrun] at hstop
    cases stop with
    | error e => cases hstop
    | ok _ =>
        have hfailed : size = kFailedWrite := (Prod.mk.inj (Except.ok.inj hstop)).1
        rw [kFailedWrite] at hfailed
        omega
  have hnames : ∀ kv ∈ dt.idToName.pairs, NameWritable kv := by
    by_contra hnot
    simp only [not_forall] at hnot
    obtain ⟨kv₀, hkv₀, hnot₀⟩ := hnot
    obtain ⟨kv, p, hreach, hlong⟩ := exists_reaches cutDocFormat 16 ⟨kv₀, hkv₀, hnot₀⟩
    have hle := hreach.le
    rcases Int.lt_or_eq_of_le (Int.not_lt.mp hlong) with hneg | hzero
    · exact hgoes _ (writeIndex_stops_docs (.error .badAccess) hreach (by omega) (docname_faults hneg p) f)
    · exact hgoes _ (writeIndex_stops_docs (.ok ()) hreach (by omega) (docname_refused hzero p) f)
  refine ⟨hnames, ?_⟩
  by_contra hnot
  simp only [not_forall] at hnot
  obtain ⟨kv₀, hkv₀, hnot₀⟩ := hnot
  obtain ⟨kv, p, hreach, hlong⟩ := exists_reaches cutWordFormat (16 + cutDocFormat.tableSize dt.idToName)
    ⟨kv₀, hkv₀, hnot₀⟩
  have hle := hreach.le
  have helem : cutWordFormat.size kv =
      6 + (int16 kv.value.word.length).toNat + postingFormat.tableSize kv.value.postings := rfl
  by_cases hbefore : (p : Int) + 6 + int16 kv.value.word.length < 0
  · exact hgoes _ (writeIndex_stops_words (.ok ()) hnames hreach (by omega) (word_refused hbefore) f)
  · exact hgoes _ (writeIndex_stops_words (.error .badAccess) hnames hreach (by omega)
      (word_faults (Int.not_le.mp hlong) (by omega) (by omega)) f)

end

end WriteIndex

namespace HashTableReader

theorem freadVerified_length (n : Nat) : Ensures handle (freadVerified n) fun bs => bs.length = n := by
  constructor
  intro f bs f' hrun
  by_cases h : f.pos + n ≤ f.image.length
  · simp only [freadVerified, fread, run_bind, run_perform, handle, h, if_true] at hrun
    obtain rfl := (Prod.mk.inj (Except.ok.inj hrun)).1
    exact FileImage.length_slice _ _ _
  · rw [run_freadVerified_short (by omega)] at hrun
    cases hrun

theorem readChars_length (n : Nat) : Ensures handle (readChars n) fun bs => bs.length = n := by
  induction n with
  | zero => exact .pure rfl
  | succ n ih =>
      apply (freadVerified_length 1).bind
      intro nextChar hnext
      apply ih.bind
      intro rest hrest
      apply Ensures.pure
      rw [List.length_append, hnext, hrest, Nat.add_comm]

theorem firstMatch_ensures {α : Type} {matchAt : Int → FileProgram (Option α)} {Q : α → Prop}
    (h : ∀ offset, Ensures handle (matchAt offset) fun r => ∀ a ∈ r, Q a) (offsets : List Int) :
    Ensures handle (firstMatch matchAt offsets) fun r => ∀ a ∈ r, Q a := by
  induction offsets with
  | nil => exact .pure (by simp)
  | cons offset offsets ih =>
      apply (h offset).bind
      intro r hr
      cases r with
      | none => exact ih
      | some a => exact .pure hr

end HashTableReader

theorem DocTableReader.lookupDocID_length (dtr : HashTableReader) (docId : UInt64) :
    Ensures handle (lookupDocID dtr docId) fun r => ∀ name ∈ r, name.length ≤ 32767 := by
  apply (Ensures.any _).bind
  intro elements _
  apply HashTableReader.firstMatch_ensures
  intro offset
  apply (Ensures.any _).bind
  intro _ _
  apply (HashTableReader.freadVerified_length _).bind
  intro bs hbs
  apply Ensures.ite
  · apply (HashTableReader.readChars_length _).bind
    intro name hname
    apply Ensures.pure
    intro name' hname'
    obtain rfl := Option.some.inj hname'
    have htwo : (bs.drop 8).length = 2 := by
      rw [List.length_drop, hbs]
      rfl
    have hlt := BigEndian.signed_two_le htwo
    change name.length = (BigEndian.signed (bs.drop 8)).toNat at hname
    omega
  · exact .pure (by simp)

theorem IndexTableReader.lookupWord_length (itr : HashTableReader) (word : Bytes) :
    Ensures handle (lookupWord itr word) fun r => r.isSome → word.length ≤ 32767 := by
  have h : Ensures handle (lookupWord itr word) fun r => ∀ didtr ∈ r, word.length ≤ 32767 := by
    apply (Ensures.any _).bind
    intro elements _
    apply HashTableReader.firstMatch_ensures (Q := fun _ => word.length ≤ 32767)
    intro offset
    apply (Ensures.any _).bind
    intro _ _
    apply (HashTableReader.freadVerified_length _).bind
    intro bs hbs
    apply Ensures.ite
    · exact .pure (by simp)
    · apply (HashTableReader.readChars_length _).bind
      intro chars hchars
      by_cases hsame : word = chars
      · have htwo : (bs.take 2).length = 2 := by
          rw [List.length_take, hbs]
          rfl
        have hlt := BigEndian.signed_two_le htwo
        change chars.length = (BigEndian.signed (bs.take 2)).toNat at hchars
        rw [if_pos hsame]
        apply (Ensures.any _).mono
        intro r _ didtr _
        rw [hsame]
        omega
      · rw [if_neg hsame]
        exact .pure (by simp)
  apply h.mono
  intro r hr hsome
  obtain ⟨didtr, hdidtr⟩ := Option.isSome_iff_exists.mp hsome
  exact hr didtr hdidtr

/-- A lookup of everything in the two structures finds it in the file. -/
structure FindsAll (image : FileImage) (mi : MemIndex) (dt : DocTable) (dtr itr : HashTableReader) : Prop where
  names : ∀ kv ∈ dt.idToName.pairs, Returns image (DocTableReader.lookupDocID dtr kv.key) (some kv.value)
  words : ∀ kv ∈ mi.pairs, ∃ didtr, Returns image (IndexTableReader.lookupWord itr kv.value.word) (some didtr) ∧
    ∀ p ∈ kv.value.postings.pairs, ∃ positions,
      Returns image (DocIDTableReader.lookupDocID didtr p.key) (some positions) ∧
        positions.map UInt32.toUInt64 = p.value.payloads

/-- A position has four bytes in the file. -/
def PositionsFit (mi : MemIndex) : Prop :=
  ∀ kv ∈ mi.pairs, ∀ p ∈ kv.value.postings.pairs, ∀ q ∈ p.value.payloads, q.toNat < 2 ^ 32

theorem positionsFit_of_build {mi : MemIndex} {adds : List Posting} (hmi : MemIndex.build adds = .ok mi)
    (hadds : ∀ add ∈ adds, ∀ q ∈ add.postings.payloads, q.toNat < 2 ^ 32) : PositionsFit mi := by
  have hidx := MemIndex.build_indexes hmi
  intro kv hkv p hp q hq
  have hl := HashTable.mem_pairs.mp hkv
  rw [← hidx.hash_word hkv] at hl
  have hadd := (hidx.postings_iff hl rfl p.key p.value).mp (HashTable.mem_pairs.mp hp)
  exact hadds _ hadd q hq

theorem DocIDTableReader.diskPositions_payloads {positions : Postings} :
    (diskPositions positions).map UInt32.toUInt64 = positions.payloads ↔
      ∀ q ∈ positions.payloads, q.toNat < 2 ^ 32 := by
  have hcut (q : UInt64) : q.toUInt32.toUInt64 = q ↔ q.toNat < 2 ^ 32 := by
    rw [← UInt64.toNat_inj, UInt32.toNat_toUInt64, UInt64.toNat_toUInt32]
    omega
  have hid : positions.payloads = positions.payloads.map id := (List.map_id _).symm
  rw [diskPositions, List.map_map]
  conv_lhs => rhs; rw [hid]
  rw [List.map_inj_left]
  exact forall₂_congr fun q _ => hcut q

theorem findsAll_of_indexFile {image : FileImage} {mi : MemIndex} {dt : DocTable} {adds : List Posting}
    (hmi : MemIndex.build adds = .ok mi) (hrep : WriteIndex.Representable mi dt) (hpos : PositionsFit mi)
    (hfile : IndexFile mi dt image) :
    FindsAll image mi dt (HashTableReader.readerAt 16 dt.idToName)
      (HashTableReader.readerAt (16 + docFormat.tableSize dt.idToName) mi) := by
  have hidx := MemIndex.build_indexes hmi
  constructor
  · intro kv hkv
    have hlookup := DocTableReader.lookupDocID_returns hfile.docs (fun kv hkv => (hrep.names kv hkv).2) kv.key
    rwa [HashTable.mem_pairs.mp hkv] at hlookup
  · intro kv hkv
    have hl := HashTable.mem_pairs.mp hkv
    rw [← hidx.hash_word hkv] at hl
    obtain ⟨res, hres, hspec⟩ := IndexTableReader.lookupWord_returns hfile.words hrep.words
      (fun kv hkv => hidx.hash_word hkv) kv.value.word
    cases res with
    | none => exact absurd rfl (hspec kv.value hl)
    | some didtr =>
        refine ⟨didtr, hres, ?_⟩
        obtain ⟨wp, hl', _, off, rfl, ht⟩ := hspec
        obtain rfl := Option.some.inj (hl.symm.trans hl')
        intro p hp
        have hlookup := DocIDTableReader.lookupDocID_returns ht p.key
        rw [HashTable.mem_pairs.mp hp] at hlookup
        exact ⟨_, hlookup, DocIDTableReader.diskPositions_payloads.mpr (hpos kv hkv p hp)⟩

namespace WriteIndex

/-- Either there is no file, or everything can be looked up in it again. -/
def NoSilentLoss (mi : MemIndex) (dt : DocTable) (f : OpenFile) : Prop :=
  ∃ size file, (writeIndex mi dt).run handle f = .ok (size, file) ∧
    (size < 0 ∧ file.linked = false ∨
      size = file.image.length ∧ file.linked = true ∧ ∀ validate pos, ∃ dtr itr pos',
        (FileIndexReader.openTables validate).run handle ⟨file.image, pos, true⟩ =
          .ok ((dtr, itr), ⟨file.image, pos', true⟩) ∧ FindsAll file.image mi dt dtr itr)

/-- The lengths, positions and offsets that the file has room for, and the two ways in
which one that it has no room for is noticed: a name whose length is cut to
nothing, and a word that the cut length would put before the file. -/
inductive Handled (mi : MemIndex) (dt : DocTable) : Prop
  | fits (hrep : Representable mi dt) (hpos : PositionsFit mi) (hfit : indexSize mi dt < 2 ^ 31)
  | noName (kv : HTKeyValue Bytes) (p : Nat) (hreach : Reaches cutDocFormat NameWritable 16 dt.idToName kv p)
      (hfit : p < 2 ^ 31) (hzero : int16 kv.value.length = 0)
  | beforeFile (hnames : ∀ kv ∈ dt.idToName.pairs, NameWritable kv) (kv : HTKeyValue WordPostings) (p : Nat)
      (hreach : Reaches cutWordFormat WordWritable (16 + cutDocFormat.tableSize dt.idToName) mi kv p)
      (hneg : (p : Int) + 6 + int16 kv.value.word.length < 0)

section

variable {mi : MemIndex} {dt : DocTable} {f : OpenFile}

theorem noSilentLoss_of_refused
    (h : ((writeIndex mi dt).run handle f).map (fun r => (r.1, r.2.linked)) = .ok (kFailedWrite, false)) :
    NoSilentLoss mi dt f := by
  cases hrun : (writeIndex mi dt).run handle f with
  | error e =>
      rw [hrun] at h
      cases h
  | ok r =>
      rw [hrun] at h
      obtain ⟨hsize, hlinked⟩ := Prod.mk.inj (Except.ok.inj h)
      exact ⟨r.1, r.2, hrun, .inl ⟨by rw [hsize, kFailedWrite]; decide, hlinked⟩⟩

theorem not_noSilentLoss_of_fault {e : Fault}
    (h : ((writeIndex mi dt).run handle f).map (fun r => (r.1, r.2.linked)) = .error e) : ¬NoSilentLoss mi dt f := by
  rintro ⟨size, file, hrun, _⟩
  rw [hrun] at h
  cases h

theorem Handled.noSilentLoss {adds : List Posting} (hmi : MemIndex.build adds = .ok mi) (h : Handled mi dt)
    (f : OpenFile) : NoSilentLoss mi dt f := by
  cases h with
  | fits hrep hpos hfit =>
      obtain ⟨checksum, pos, hsum, hrun⟩ := writeIndex_writes hrep hfit f
      have hfile := indexFile_patch hfit hsum
      refine ⟨_, _, hrun, .inr ⟨by rw [hfile.length], rfl, ?_⟩⟩
      intro validate pos
      obtain ⟨pos', hopen⟩ := FileIndexReader.openTables_run hfile validate pos
      exact ⟨_, _, pos', hopen, findsAll_of_indexFile hmi hrep hpos hfile⟩
  | noName kv p hreach hfit hzero =>
      exact noSilentLoss_of_refused (writeIndex_stops_docs (.ok ()) hreach hfit (docname_refused hzero p) f)
  | beforeFile hnames kv p hreach hneg =>
      have hge := int16_ge kv.value.word.length
      exact noSilentLoss_of_refused
        (writeIndex_stops_words (.ok ()) hnames hreach (by omega) (word_refused hneg) f)

/-- A file in which everything is found has no length and no position in it
that was cut. -/
theorem NoSilentLoss.uncut (h : NoSilentLoss mi dt f) (hnames : ∀ kv ∈ dt.idToName.pairs, NameWritable kv)
    (hwords : ∀ kv ∈ mi.pairs, WordWritable kv)
    (hfit : cutSize mi dt < 2 ^ 31) : Representable mi dt ∧ PositionsFit mi := by
  obtain ⟨size, file, hrun, hend⟩ := h
  obtain ⟨n, file', hrun', hlinked⟩ := writeIndex_cut hnames hwords hfit f
  obtain ⟨rfl, rfl⟩ := Prod.mk.inj (Except.ok.inj (hrun.symm.trans hrun'))
  rcases hend with ⟨hneg, _⟩ | ⟨_, _, hfound⟩
  · omega
  · obtain ⟨dtr, itr, _, _, hall⟩ := hfound true 0
    refine ⟨⟨?_, ?_⟩, ?_⟩
    · intro kv hkv
      constructor
      · intro hempty
        have hwritable := hnames kv hkv
        rw [NameWritable, hempty] at hwritable
        exact absurd hwritable (by decide)
      · obtain ⟨_, hlookup⟩ := hall.names kv hkv 0 true
        exact (DocTableReader.lookupDocID_length dtr kv.key).of_run _ _ _ hlookup _ rfl
    · intro kv hkv
      obtain ⟨didtr, hlookup, _⟩ := hall.words kv hkv
      obtain ⟨_, hlookup⟩ := hlookup 0 true
      exact (IndexTableReader.lookupWord_length itr kv.value.word).of_run _ _ _ hlookup rfl
    · intro kv hkv p hp q hq
      obtain ⟨didtr, _, hpostings⟩ := hall.words kv hkv
      obtain ⟨positions, _, hpayloads⟩ := hpostings p hp
      rw [← hpayloads] at hq
      obtain ⟨q, _, rfl⟩ := List.mem_map.mp hq
      rw [UInt32.toNat_toUInt64]
      exact q.toNat_lt

theorem Representable.indexSize_eq (hrep : Representable mi dt) : indexSize mi dt = cutSize mi dt := by
  rw [indexSize, cutSize, docFormat.tableSize_eq, cutDocFormat.tableSize_eq, wordFormat.tableSize_eq,
    cutWordFormat.tableSize_eq]
  have hdocs : total docFormat.size dt.idToName.pairs = total cutDocFormat.size dt.idToName.pairs := by
    apply total_congr
    intro kv hkv
    obtain ⟨hlen, _⟩ := take_length_int16 (hrep.names kv hkv).2
    change 10 + kv.value.length = 10 + (int16 kv.value.length).toNat
    omega
  have hwords : total wordFormat.size mi.pairs = total cutWordFormat.size mi.pairs := by
    apply total_congr
    intro kv hkv
    obtain ⟨hlen, _⟩ := take_length_int16 (hrep.words kv hkv)
    change 6 + kv.value.word.length + postingFormat.tableSize kv.value.postings =
      6 + (int16 kv.value.word.length).toNat + postingFormat.tableSize kv.value.postings
    omega
  rw [hdocs, hwords]

theorem NoSilentLoss.handled (h : NoSilentLoss mi dt f) (hsmall : cutSize mi dt < 2 ^ 31) : Handled mi dt := by
  have hsize : cutSize mi dt = 16 + cutDocFormat.tableSize dt.idToName + cutWordFormat.tableSize mi := rfl
  by_cases hnames : ∀ kv ∈ dt.idToName.pairs, NameWritable kv
  · by_cases hwords : ∀ kv ∈ mi.pairs, WordWritable kv
    · obtain ⟨hrep, hpos⟩ := h.uncut hnames hwords hsmall
      exact .fits hrep hpos (by rw [hrep.indexSize_eq]; exact hsmall)
    · simp only [not_forall] at hwords
      obtain ⟨kv₀, hkv₀, hnot₀⟩ := hwords
      obtain ⟨kv, p, hreach, hnot⟩ := exists_reaches cutWordFormat (16 + cutDocFormat.tableSize dt.idToName)
        ⟨kv₀, hkv₀, hnot₀⟩
      have hle := hreach.le
      have helem : cutWordFormat.size kv =
          6 + (int16 kv.value.word.length).toNat + postingFormat.tableSize kv.value.postings := rfl
      by_cases hneg : (p : Int) + 6 + int16 kv.value.word.length < 0
      · exact .beforeFile hnames kv p hreach hneg
      · exact absurd h (not_noSilentLoss_of_fault (writeIndex_stops_words (.error .badAccess) hnames hreach
          (by omega) (word_faults (Int.not_le.mp hnot) (by omega) (by omega)) f))
  · simp only [not_forall] at hnames
    obtain ⟨kv₀, hkv₀, hnot₀⟩ := hnames
    obtain ⟨kv, p, hreach, hnot⟩ := exists_reaches cutDocFormat 16 ⟨kv₀, hkv₀, hnot₀⟩
    have hle := hreach.le
    by_cases hzero : int16 kv.value.length = 0
    · exact .noName kv p hreach (by omega) hzero
    · have hneg : int16 kv.value.length < 0 := by
        have hnot' : ¬0 < int16 kv.value.length := hnot
        omega
      exact absurd h (not_noSilentLoss_of_fault (writeIndex_stops_docs (.error .badAccess) hreach (by omega)
        (docname_faults hneg p) f))

/-- What is not lost: everything, if the lengths fit or it is noticed that
they do not, and, where the file stays below two gigabytes, only then. -/
theorem writeIndex_noSilentLoss {adds : List Posting} (hmi : MemIndex.build adds = .ok mi) (dt : DocTable)
    (f : OpenFile) :
    (Handled mi dt → NoSilentLoss mi dt f) ∧ (cutSize mi dt < 2 ^ 31 → (NoSilentLoss mi dt f ↔ Handled mi dt)) :=
  ⟨fun h => h.noSilentLoss hmi f, fun hsmall => ⟨fun h => h.handled hsmall, fun h => h.noSilentLoss hmi f⟩⟩

end

theorem writeIndex_noSilentLoss_small :
    ∃ dt mi, DocTable.build smallNames = .ok dt ∧ MemIndex.build smallAdds = .ok mi ∧
      NoSilentLoss mi dt ⟨.empty, 0, false⟩ := by
  obtain ⟨dt, mi, hdt, hmi, hfit, _⟩ := build_small
  have hrep := representable_of_build hdt hmi (by decide) (by decide)
  have hall : (smallAdds.all fun add => add.postings.payloads.all fun q => q.toNat < 2 ^ 32) = true := by decide
  have hpos := positionsFit_of_build hmi fun add hadd q hq =>
    of_decide_eq_true (List.all_eq_true.mp (List.all_eq_true.mp hall add hadd) q hq)
  exact ⟨dt, mi, hdt, hmi, (writeIndex_noSilentLoss hmi dt ⟨.empty, 0, false⟩).1 (.fits hrep hpos hfit)⟩

/-- A document of one word, whose length is cut to one. -/
def longWord : Posting := ⟨List.replicate 65537 97, 1, LinkedList.allocate.append 0⟩

theorem longWord_postings {mi : MemIndex} (hidx : mi.Indexes [longWord]) {kv : HTKeyValue WordPostings}
    (hkv : kv ∈ mi.pairs) : postingFormat.tableSize kv.value.postings ≤ 200 := by
  have hl := HashTable.mem_pairs.mp hkv
  have hnum : kv.value.postings.numElements ≤ 1 := by
    rw [hidx.numDocs _ _ hl]
    exact List.countP_le_length
  have hbuckets : kv.value.postings.numBuckets ≤ 16 := by
    rw [(hidx.tables _ _ hl).buckets]
    exact HashTable.bucketsFor_mono 16 hnum
  have helems : total postingFormat.size kv.value.postings.pairs ≤ 16 * kv.value.postings.pairs.length := by
    apply total_le
    intro p hp
    rw [← hidx.hash_word hkv] at hl
    have hin := (hidx.postings_iff hl rfl p.key p.value).mp (HashTable.mem_pairs.mp hp)
    obtain ⟨_, _, hvalue⟩ := Posting.mk.inj (List.mem_singleton.mp hin)
    change 12 + 4 * p.value.numElements ≤ 16
    rw [hvalue]
    decide
  rw [HashTable.length_pairs] at helems
  rw [postingFormat.tableSize_eq]
  omega

theorem build_longWord : ∃ mi, MemIndex.build [longWord] = .ok mi ∧ cutWordFormat.tableSize mi ≤ 1000 ∧
    ∃ kv ∈ mi.pairs, kv.value.word = longWord.word := by
  obtain ⟨index, halloc, _⟩ := HashTable.allocate_grown (V := WordPostings) (n := MemIndex.initBuckets) (by decide)
    (by decide)
  obtain ⟨mi, hadd⟩ : ∃ mi, MemIndex.addAll index [longWord] = .ok mi := MemIndex.addAll_new
    (MemIndex.allocate_indexes halloc) (by simp) (by simp)
    (by simpa using MemIndex.bucketsFor_one)
    (fun w => Nat.le_trans (Nat.mul_le_mul_left 3 (HashTable.bucketsFor_mono 16 List.countP_le_length)) (by decide))
  have hbuild : MemIndex.build [longWord] = .ok mi := by
    rw [MemIndex.build, MemIndex.allocate, halloc, Run.ok_bind, hadd]
  have hidx := MemIndex.build_indexes hbuild
  refine ⟨mi, hbuild, ?_, ?_⟩
  · have hnum : mi.numElements = 1 := by
      rw [hidx.numWords]
      simp
    have hbuckets : mi.numBuckets = 16 := by
      rw [hidx.grown.buckets, hnum]
      rfl
    have helems : total cutWordFormat.size mi.pairs ≤ 300 * mi.pairs.length := by
      apply total_le
      intro kv hkv
      obtain ⟨a, ha, hword, _⟩ := hidx.words _ _ (HashTable.mem_pairs.mp hkv)
      obtain rfl := List.mem_singleton.mp ha
      have hlen : kv.value.word.length = 65537 := by
        rw [← hword]
        exact List.length_replicate
      have hpostings := longWord_postings hidx hkv
      have hcut : int16 ((65537 : Nat) : Int) = 1 := by decide
      change 6 + (int16 kv.value.word.length).toNat + postingFormat.tableSize kv.value.postings ≤ 300
      rw [hlen, hcut]
      omega
    rw [HashTable.length_pairs] at helems
    rw [cutWordFormat.tableSize_eq]
    omega
  · obtain ⟨wp, hl, hword⟩ := hidx.word longWord (by simp)
    exact ⟨⟨_, wp⟩, HashTable.mem_pairs.mpr hl, hword⟩

theorem build_oneDoc : ∃ dt, DocTable.build [ascii ['d']] = .ok dt ∧ cutDocFormat.tableSize dt.idToName ≤ 1000 := by
  have h : (do
      let dt ← DocTable.build [ascii ['d']]
      return decide (cutDocFormat.tableSize dt.idToName ≤ 1000) : Run Bool) = .ok true := by
    decide +kernel
  obtain ⟨dt, hdt, h⟩ := Run.bind_eq_ok.mp h
  exact ⟨dt, hdt, of_decide_eq_true (Except.ok.inj h)⟩

/-- The word is gone, though WriteIndex reports success. -/
theorem writeIndex_loses_longWord :
    ∃ dt mi size file, DocTable.build [ascii ['d']] = .ok dt ∧ MemIndex.build [longWord] = .ok mi ∧
      (writeIndex mi dt).run handle ⟨.empty, 0, false⟩ = .ok (size, file) ∧ 0 ≤ size ∧
      ¬NoSilentLoss mi dt ⟨.empty, 0, false⟩ := by
  obtain ⟨mi, hmi, hwordsize, hlong⟩ := build_longWord
  obtain ⟨dt, hdt, hdocsize⟩ := build_oneDoc
  obtain ⟨none, hnone⟩ : ∃ mi, MemIndex.build [] = .ok mi := ⟨_, rfl⟩
  have hrep := representable_of_build hdt hnone (by decide) (by simp)
  have hnames : ∀ kv ∈ dt.idToName.pairs, NameWritable kv := by
    intro kv hkv
    obtain ⟨hne, hle⟩ := hrep.names kv hkv
    have hpos := List.length_pos_iff.mpr hne
    rw [NameWritable, (take_length_int16 hle).1]
    omega
  have hidx := MemIndex.build_indexes hmi
  have hwords : ∀ kv ∈ mi.pairs, WordWritable kv := by
    intro kv hkv
    obtain ⟨a, ha, hword, _⟩ := hidx.words _ _ (HashTable.mem_pairs.mp hkv)
    obtain rfl := List.mem_singleton.mp ha
    have hlen : kv.value.word.length = 65537 := by
      rw [← hword]
      exact List.length_replicate
    rw [WordWritable, hlen]
    decide
  have hfit : cutSize mi dt < 2 ^ 31 := by
    rw [cutSize]
    omega
  obtain ⟨size, file, hrun, _⟩ := writeIndex_cut hnames hwords hfit ⟨.empty, 0, false⟩
  refine ⟨dt, mi, size, file, hdt, hmi, hrun, Int.natCast_nonneg size, ?_⟩
  intro h
  obtain ⟨kv, hkv, hword⟩ := hlong
  have hle := (h.uncut hnames hwords hfit).1.words kv hkv
  have hlen : longWord.word.length = 65537 := List.length_replicate
  rw [hword, hlen] at hle
  exact absurd hle (by decide)

end WriteIndex

end SearchEngine
