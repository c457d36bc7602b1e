import SearchEngine.CheckerAcceptance

/-! The checker on the files that WriteIndex writes. -/

namespace SearchEngine

open FileProgram Layout Program OpenFile

namespace FileIndexChecker

variable {mi : MemIndex} {dt : DocTable} {names : List Bytes} {adds : List Posting}

/-- What is written passes the checker, unless the file ends at the largest
int. -/
theorem writeIndex_checked (hck : Checkable mi dt) (hfit : SearchEngine.indexSize mi dt < 2 ^ 31) (f : OpenFile) :
    ∃ size image pos, (WriteIndex.writeIndex mi dt).run handle f = .ok (size, ⟨image, pos, true⟩) ∧ 0 < size ∧
      ∀ pos, (∃ file, hw3fsck.run handle ⟨image, pos, true⟩ = .ok (true, file)) ↔
        SearchEngine.indexSize mi dt < 2 ^ 31 - 1 := by
  obtain ⟨checksum, pos, hsum, hwrite⟩ := WriteIndex.writeIndex_writes hck.representable hfit f
  have hpos : 0 < SearchEngine.indexSize mi dt := by
    rw [SearchEngine.indexSize]
    omega
  exact ⟨_, _, pos, hwrite, by omega, hw3fsck_iff hck (indexFile_patch hfit hsum)⟩

theorem checkable_of_build (hdt : DocTable.build names = .ok dt) (hmi : MemIndex.build adds = .ok mi)
    (hnames : ∀ name ∈ names, name ≠ [] ∧ name.length ≤ 32767 ∧ ∀ c ∈ name, isascii c = true)
    (hwords : ∀ a ∈ adds, FileParser.LowerLetters a.word ∧ a.word.length < 8192)
    (hpositions : ∀ a ∈ adds, DocIDTableChecker.Ascending a.postings.payloads ∧ a.postings.numElements < 1000000) :
    Checkable mi dt := by
  obtain ⟨registered, hreg, hsub⟩ := DocTable.build_registers hdt
  have hidx := MemIndex.build_indexes hmi
  constructor
  · intro kv hkv
    obtain ⟨i, hi, _⟩ := (hreg.idToName _ _).mp (HashTable.mem_pairs.mp hkv)
    exact hnames kv.value (hsub.subset (List.mem_of_getElem? hi))
  · intro kv hkv
    have hl := HashTable.mem_pairs.mp hkv
    obtain ⟨a, ha, hword, _⟩ := hidx.words _ _ hl
    obtain ⟨hletters, hshort⟩ := hwords a ha
    rw [hword] at hletters hshort
    refine ⟨hletters, hshort, ?_⟩
    intro p hp
    rw [← hidx.hash_word hkv] at hl
    exact hpositions _ ((hidx.postings_iff hl rfl p.key p.value).mp (HashTable.mem_pairs.mp hp))

theorem build_smaller : ∃ dt mi, DocTable.build smallNames = .ok dt ∧ MemIndex.build smallAdds = .ok mi ∧
    SearchEngine.indexSize mi dt < 2 ^ 31 - 1 := by
  have h : (do
      let dt ← DocTable.build smallNames
      let mi ← MemIndex.build smallAdds
      return decide (SearchEngine.indexSize mi dt < 2 ^ 31 - 1) : Run Bool) = .ok true := by
    decide +kernel
  obtain ⟨dt, hdt, h⟩ := Run.bind_eq_ok.mp h
  obtain ⟨mi, hmi, h⟩ := Run.bind_eq_ok.mp h
  exact ⟨dt, mi, hdt, hmi, of_decide_eq_true (Except.ok.inj h)⟩

theorem writeIndex_checked_small :
    ∃ dt mi size image pos, DocTable.build smallNames = .ok dt ∧ MemIndex.build smallAdds = .ok mi ∧
      (WriteIndex.writeIndex mi dt).run handle ⟨.empty, 0, false⟩ = .ok (size, ⟨image, pos, true⟩) ∧ 0 < size ∧
      ∀ pos, ∃ file, hw3fsck.run handle ⟨image, pos, true⟩ = .ok (true, file) := by
  obtain ⟨dt, mi, hdt, hmi, hedge⟩ := build_smaller
  have hwords : ∀ a ∈ smallAdds, (a.word ≠ [] ∧ ∀ c ∈ a.word, 97 ≤ c ∧ c ≤ 122) ∧ a.word.length < 8192 := by
    decide +kernel
  have hpositions : ∀ a ∈ smallAdds, (a.postings.payloads.Pairwise (· < ·) ∧
      a.postings.payloads.all fun p => p.toNat < 2 ^ 31) ∧ a.postings.numElements < 1000000 := by
    decide +kernel
  have hck : Checkable mi dt := by
    apply checkable_of_build hdt hmi (by decide +kernel) hwords
    intro a ha
    obtain ⟨⟨hsorted, hsmall⟩, hfew⟩ := hpositions a ha
    exact ⟨⟨hsorted, fun p hp => of_decide_eq_true (List.all_eq_true.mp hsmall p hp)⟩, hfew⟩
  obtain ⟨size, image, pos, hwrite, hsize, hcheck⟩ := writeIndex_checked hck (by omega) ⟨.empty, 0, false⟩
  exact ⟨dt, mi, size, image, pos, hdt, hmi, hwrite, hsize, fun pos => (hcheck pos).mpr hedge⟩

/-- The positions up to n, in order. -/
def positionsUpTo : Nat → Postings
  | 0 => .allocate
  | n + 1 => (positionsUpTo n).append (UInt64.ofNat n)

theorem payloads_positionsUpTo (n : Nat) : (positionsUpTo n).payloads = (List.range n).map UInt64.ofNat := by
  induction n with
  | zero => rfl
  | succ n ih =>
      rw [positionsUpTo, LinkedList.payloads_append, ih, List.range_succ, List.map_append, List.map_singleton]

theorem numElements_positionsUpTo (n : Nat) : (positionsUpTo n).numElements = n := by
  rw [← LinkedList.length_payloads, payloads_positionsUpTo, List.length_map, List.length_range]

theorem ascending_positionsUpTo {n : Nat} (h : n ≤ 2 ^ 31) :
    DocIDTableChecker.Ascending (positionsUpTo n).payloads := by
  rw [payloads_positionsUpTo]
  have hsame : ∀ i ∈ List.range n, (UInt64.ofNat i).toNat = i := by
    intro i hi
    rw [UInt64.toNat_ofNat', Nat.mod_eq_of_lt]
    have hlt := List.mem_range.mp hi
    omega
  constructor
  · rw [List.pairwise_map]
    apply List.pairwise_lt_range.imp_of_mem
    intro i j hi hj hlt
    rw [UInt64.lt_iff_toNat_lt, hsame i hi, hsame j hj]
    exact hlt
  · intro p hp
    obtain ⟨i, hi, rfl⟩ := List.mem_map.mp hp
    have hlt := List.mem_range.mp hi
    rw [hsame i hi]
    omega

/-- One word that is at so many places of so many documents. -/
def everywhere (docs n : Nat) : List Posting :=
  (List.range docs).map fun i => ⟨ascii ['a'], DocTable.idAt i, positionsUpTo n⟩

section

variable {docs n : Nat}

theorem mem_everywhere {a : Posting} (h : a ∈ everywhere docs n) :
    a.word = ascii ['a'] ∧ a.postings = positionsUpTo n := by
  obtain ⟨i, _, rfl⟩ := List.mem_map.mp h
  exact ⟨rfl, rfl⟩

theorem length_everywhere : (everywhere docs n).length = docs := by
  rw [everywhere, List.length_map, List.length_range]

theorem words_everywhere : ((everywhere docs n).map Posting.word).toFinset ⊆ {ascii ['a']} := by
  intro w hw
  obtain ⟨a, ha, rfl⟩ := List.mem_map.mp (List.mem_toFinset.mp hw)
  rw [(mem_everywhere ha).1]
  exact Finset.mem_singleton_self _

theorem build_everywhere (hdocs : docs ≤ INT_MAX) (hfit : 3 * HashTable.bucketsFor 16 docs ≤ INT_MAX) :
    ∃ mi, MemIndex.build (everywhere docs n) = .ok mi := by
  obtain ⟨index, halloc, _⟩ := HashTable.allocate_grown (V := WordPostings) (n := MemIndex.initBuckets) (by decide)
    (by decide)
  have hdistinct : ((everywhere docs n).map fun a => (a.word, a.docId)).Nodup := by
    rw [everywhere, List.map_map]
    apply List.Nodup.map_on _ List.nodup_range
    intro i hi j hj h
    have hlt := List.mem_range.mp hi
    have hlt' := List.mem_range.mp hj
    exact DocTable.idAt_inj (by omega) (by omega) (Prod.mk.inj h).2
  obtain ⟨mi, hadd⟩ : ∃ mi, MemIndex.addAll index (everywhere docs n) = .ok mi := MemIndex.addAll_new
    (MemIndex.allocate_indexes halloc)
    (fun a ha b hb _ => (mem_everywhere ha).1.trans (mem_everywhere hb).1.symm) hdistinct
    (Nat.le_trans (Nat.mul_le_mul_left 3 (HashTable.bucketsFor_mono 16 (Finset.card_le_card words_everywhere)))
      MemIndex.bucketsFor_one)
    (fun w => Nat.le_trans (Nat.mul_le_mul_left 3 (HashTable.bucketsFor_mono 16
      (Nat.le_trans List.countP_le_length (Nat.le_of_eq length_everywhere)))) hfit)
  exact ⟨mi, by rw [MemIndex.build, MemIndex.allocate, halloc, Run.ok_bind, hadd]⟩

theorem tableSize_everywhere (hpos : 0 < docs) (h : MemIndex.build (everywhere docs n) = .ok mi) :
    wordFormat.tableSize mi = 147 + 8 * HashTable.bucketsFor 16 docs + (16 + 4 * n) * docs := by
  have hidx := MemIndex.build_indexes h
  have hone : mi.numElements = 1 := by
    rw [hidx.numWords]
    apply Nat.le_antisymm (Finset.card_le_card words_everywhere)
    apply Finset.card_pos.mpr
    exact ⟨ascii ['a'], List.mem_toFinset.mpr (List.mem_map.mpr
      ⟨_, List.mem_map.mpr ⟨0, List.mem_range.mpr hpos, rfl⟩, rfl⟩)⟩
  have hword : ∀ kv ∈ mi.pairs,
      wordFormat.size kv = 11 + 8 * HashTable.bucketsFor 16 docs + (16 + 4 * n) * docs := by
    intro kv hkv
    have hl := HashTable.mem_pairs.mp hkv
    obtain ⟨a, ha, hsame, _⟩ := hidx.words _ _ hl
    rw [(mem_everywhere ha).1] at hsame
    have hdocs : kv.value.postings.numElements = docs := by
      rw [hidx.numDocs _ _ hl, ← hsame]
      exact (List.countP_eq_length.mpr fun b hb => decide_eq_true (mem_everywhere hb).1).trans length_everywhere
    have hbuckets : kv.value.postings.numBuckets = HashTable.bucketsFor 16 docs := by
      rw [(hidx.tables _ _ hl).buckets, hdocs]
    have hposting : ∀ p ∈ kv.value.postings.pairs, postingFormat.size p = 12 + 4 * n := by
      intro p hp
      rw [← hidx.hash_word hkv] at hl
      have hin := (hidx.postings_iff hl rfl p.key p.value).mp (HashTable.mem_pairs.mp hp)
      change 12 + 4 * p.value.numElements = 12 + 4 * n
      rw [show p.value = positionsUpTo n from (mem_everywhere hin).2, numElements_positionsUpTo]
    have hsize : wordFormat.size kv = 6 + kv.value.word.length + postingFormat.tableSize kv.value.postings := rfl
    have hlen : kv.value.word.length = 1 := by
      rw [← hsame]
      rfl
    rw [hsize, hlen, postingFormat.tableSize_eq, total_congr hposting, total_const, HashTable.length_pairs, hdocs,
      hbuckets, Nat.add_mul, Nat.add_mul]
    omega
  rw [wordFormat.tableSize_eq, total_congr hword, total_const, HashTable.length_pairs, hone, hidx.grown.buckets, hone]
  change 4 + 8 * 16 + 4 * 1 + _ = _
  omega

end

theorem build_oneName (name : Bytes) :
    ∃ dt, DocTable.build [name] = .ok dt ∧ docFormat.tableSize dt.idToName = 34 + name.length := by
  obtain ⟨table, halloc, hempty⟩ := DocTable.allocate_registers
  have hnew : ∀ n ∈ ([] : List Bytes), hashString n ≠ hashString name := by simp
  obtain ⟨dt, hadd⟩ := DocTable.add_new hempty hnew (by decide)
  have hbuild : DocTable.build [name] = .ok dt := by
    simp only [DocTable.build, halloc, Run.ok_bind, DocTable.addAll, List.foldlM_cons, List.foldlM_nil, hadd]
    rfl
  rcases DocTable.add_ok hempty hadd with ⟨_, hl⟩ | ⟨_, _, hreg⟩
  · obtain ⟨i, _, hi, _⟩ := (hempty.nameToId _ _).mp hl
    simp at hi
  · have hone : dt.idToName.numElements = 1 := hreg.numIds
    have hnamed : ∀ kv ∈ dt.idToName.pairs, docFormat.size kv = 10 + name.length := by
      intro kv hkv
      obtain ⟨i, hi, _⟩ := (hreg.idToName _ _).mp (HashTable.mem_pairs.mp hkv)
      have hvalue : kv.value = name := List.mem_singleton.mp (List.mem_of_getElem? hi)
      rw [← hvalue]
      rfl
    refine ⟨dt, hbuild, ?_⟩
    rw [docFormat.tableSize_eq, total_congr hnamed, total_const, HashTable.length_pairs, hone, hreg.ids.buckets, hone]
    change 4 + 8 * 2 + 4 * 1 + _ = _
    omega

theorem bucketsFor_600 : HashTable.bucketsFor 16 600 = 1296 := by
  have hle := HashTable.bucketsFor_le_pow (b := 16) (k := 2) (n := 600) (by decide)
  have hge := HashTable.le_bucketsFor (b := 16) (by decide) 600
  obtain ⟨k, hk⟩ := HashTable.bucketsFor_eq_pow 16 600
  have hk2 : k = 2 := by
    rcases Nat.lt_trichotomy k 2 with hlt | rfl | hgt
    · have hpow := HashTable.pow_mul_le 16 (Nat.le_of_lt_succ hlt)
      omega
    · rfl
    · have hpow := HashTable.pow_mul_le 16 (Nat.succ_le_of_lt hgt)
      omega
  rw [hk, hk2]
  rfl

/-- A file that ends at the largest int, for which the checker's sum after the
end of the index table overflows. -/
theorem hw3fsck_overflows : ∃ dt mi size image pos,
    DocTable.build [List.replicate 1082 100] = .ok dt ∧ MemIndex.build (everywhere 600 894776) = .ok mi ∧
      Checkable mi dt ∧ SearchEngine.indexSize mi dt < 2 ^ 31 ∧
      (WriteIndex.writeIndex mi dt).run handle ⟨.empty, 0, false⟩ = .ok (size, ⟨image, pos, true⟩) ∧
      ¬∃ file, hw3fsck.run handle ⟨image, pos, true⟩ = .ok (true, file) := by
  obtain ⟨dt, hdt, hdocs⟩ := build_oneName (List.replicate 1082 100)
  obtain ⟨mi, hmi⟩ : ∃ mi, MemIndex.build (everywhere 600 894776) = .ok mi :=
    build_everywhere (by decide) (by rw [bucketsFor_600]; decide)
  have hwords := tableSize_everywhere (by decide) hmi
  rw [bucketsFor_600] at hwords
  rw [List.length_replicate] at hdocs
  have hsize : SearchEngine.indexSize mi dt = 2 ^ 31 - 1 := by
    rw [SearchEngine.indexSize, hdocs, hwords]
    rfl
  have hck : Checkable mi dt := by
    apply checkable_of_build hdt hmi
    · intro name hname
      obtain rfl := List.mem_singleton.mp hname
      have hlen : (List.replicate 1082 (100 : UInt8)).length = 1082 := List.length_replicate
      refine ⟨List.length_pos_iff.mp (by omega), by omega, ?_⟩
      intro c hc
      obtain rfl := List.eq_of_mem_replicate hc
      rfl
    · intro a ha
      rw [(mem_everywhere ha).1]
      exact ⟨⟨by decide, by decide +kernel⟩, by decide⟩
    · intro a ha
      rw [(mem_everywhere ha).2, numElements_positionsUpTo]
      exact ⟨ascending_positionsUpTo (by decide), by decide⟩
  obtain ⟨checksum, pos, hsum, hwrite⟩ := WriteIndex.writeIndex_writes hck.representable (by omega) ⟨.empty, 0, false⟩
  refine ⟨dt, mi, _, _, pos, hdt, hmi, hck, by omega, hwrite, ?_⟩
  rw [hw3fsck_iff hck (indexFile_patch (by omega) hsum)]
  omega

end FileIndexChecker

end SearchEngine
