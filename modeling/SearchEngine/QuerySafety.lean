import SearchEngine.CrawledIndex
import SearchEngine.QueryAgreement

/-! Which queries of crawled index files end with results. -/

namespace SearchEngine

open FileProgram HashTableReader OpenFile Program

namespace FileProgram

variable {α β : Type} {image : FileImage} {x : FileProgram α} {f : α → FileProgram β}

/-- The program ends in an overflow, wherever the file is positioned. -/
def Overflows (image : FileImage) (p : FileProgram α) : Prop :=
  ∀ pos linked, p.run handle ⟨image, pos, linked⟩ = .error .signedOverflow

theorem Overflows.bind (h : Overflows image x) : Overflows image (x >>= f) := by
  intro pos linked
  rw [run_bind, h pos linked]
  rfl

theorem Returns.bind_overflows {a : α} (hx : Returns image x a) (hf : Overflows image (f a)) :
    Overflows image (x >>= f) := by
  intro pos linked
  obtain ⟨pos', hrun⟩ := hx pos linked
  rw [run_bind, hrun, ok_bind, hf pos' linked]

end FileProgram

namespace QueryProcessor

section

variable (find : Bytes → Option WordPostings)

/-- The number of positions of a word in a document that has it. -/
def countOf (word : Bytes) (docId : DocID) : Option Nat :=
  (find word).bind fun wp => (wp.postings.lookup docId).map fun p => p.numElements

/-- The number of positions of some words in a document that has them all. -/
def rankOf : List Bytes → DocID → Option Nat
  | [], _ => some 0
  | word :: words, docId => (countOf find word docId).bind fun n => (rankOf words docId).map (n + ·)

/-- No sum over the leading words of a query leaves the range of an int. -/
def SumsFit (query : List Bytes) : Prop :=
  ∀ q, q <+: query → ∀ docId, ∀ r ∈ rankOf find q docId, r ≤ INT_MAX

/-- The same for the words that follow some others. -/
def SumsFitAfter (words query : List Bytes) : Prop :=
  ∀ q, q <+: query → q ≠ [] → ∀ docId, ∀ r ∈ rankOf find (words ++ q) docId, r ≤ INT_MAX

/-- The documents that have all the words, each with its rank. -/
def Lists (words : List Bytes) (idList : List DocIDElementHeader) : Prop :=
  ∀ header, header ∈ idList ↔ ∃ r, rankOf find words header.docId = some r ∧ header.numPositions = (r : Nat)

end

section

variable {find : Bytes → Option WordPostings} {word : Bytes} {words query : List Bytes} {docId : DocID}

theorem rankOf_append (words more : List Bytes) (docId : DocID) : rankOf find (words ++ more) docId =
    (rankOf find words docId).bind fun r => (rankOf find more docId).map (r + ·) := by
  induction words with
  | nil => simp [rankOf]
  | cons word words ih =>
      rw [List.cons_append, rankOf, rankOf, ih]
      cases countOf find word docId with
      | none => rfl
      | some n =>
          cases rankOf find words docId with
          | none => rfl
          | some r => simp [Function.comp_def, Nat.add_assoc]

theorem rankOf_singleton (word : Bytes) (docId : DocID) : rankOf find [word] docId = countOf find word docId := by
  simp [rankOf]

theorem rankOf_prefix {r : Nat} (h : rankOf find (words ++ query) docId = some r) :
    ∃ r', rankOf find words docId = some r' := by
  rw [rankOf_append, Option.bind_eq_some_iff] at h
  obtain ⟨r', hr', _⟩ := h
  exact ⟨r', hr'⟩

theorem sumsFitAfter_cons : SumsFitAfter find words (word :: query) ↔
    (∀ docId, ∀ r ∈ rankOf find (words ++ [word]) docId, r ≤ INT_MAX) ∧
      SumsFitAfter find (words ++ [word]) query := by
  constructor
  · intro h
    refine ⟨h [word] (List.cons_prefix_cons.mpr ⟨rfl, List.nil_prefix⟩) (by simp), ?_⟩
    intro q hq _ docId r hr
    rw [← List.append_cons] at hr
    exact h (word :: q) (List.cons_prefix_cons.mpr ⟨rfl, hq⟩) (by simp) docId r hr
  · rintro ⟨hone, hrest⟩ q hq hne docId r hr
    obtain ⟨w, q, rfl⟩ := List.exists_cons_of_ne_nil hne
    obtain ⟨rfl, htail⟩ := List.cons_prefix_cons.mp hq
    cases q with
    | nil => exact hone docId r hr
    | cons w' q =>
        rw [List.append_cons] at hr
        exact hrest (w' :: q) htail (by simp) docId r hr

/-- Nothing is added up once no document is left. -/
theorem sumsFitAfter_of_none (h : ∀ docId, rankOf find words docId = none) : SumsFitAfter find words query := by
  intro q _ _ docId r hr
  obtain ⟨r', hr'⟩ := rankOf_prefix hr
  rw [h docId] at hr'
  cases hr'

theorem sumsFit_cons (hone : ∀ docId, ∀ r ∈ rankOf find [word] docId, r ≤ INT_MAX) :
    SumsFit find (word :: query) ↔ SumsFitAfter find [word] query := by
  constructor
  · intro h q hq _ docId r hr
    exact h (word :: q) (List.cons_prefix_cons.mpr ⟨rfl, hq⟩) docId r hr
  · intro h q hq docId r hr
    cases q with
    | nil =>
        obtain rfl : 0 = r := Option.some.inj hr
        exact Nat.zero_le _
    | cons w q =>
        obtain ⟨rfl, htail⟩ := List.cons_prefix_cons.mp hq
        cases q with
        | nil => exact hone docId r hr
        | cons w' q => exact h (w' :: q) htail (by simp) docId r hr

theorem lists_postings {wp : WordPostings} (h : find word = some wp) :
    Lists find [word] (wp.postings.pairs.map DocIDTableReader.headerOf) := by
  intro header
  rw [rankOf_singleton, countOf, h, Option.bind_some, List.mem_map]
  constructor
  · rintro ⟨kv, hkv, rfl⟩
    refine ⟨kv.value.numElements, ?_, rfl⟩
    rw [DocIDTableReader.headerOf, HashTable.mem_pairs.mp hkv]
    rfl
  · rintro ⟨r, hr, hnum⟩
    obtain ⟨p, hp, rfl⟩ := Option.map_eq_some_iff.mp hr
    refine ⟨⟨header.docId, p⟩, HashTable.mem_pairs.mpr hp, ?_⟩
    rw [DocIDTableReader.headerOf, ← hnum]

theorem mergeHeader_none {header1 : DocIDElementHeader} {list2 : List DocIDElementHeader}
    (h : ∀ header2 ∈ list2, header1.docId ≠ header2.docId) : mergeHeader header1 list2 = .ok none := by
  induction list2 with
  | nil => rfl
  | cons header2 list2 ih =>
      rw [mergeHeader, if_neg (h header2 (by simp))]
      exact ih fun header hheader => h header (by simp [hheader])

theorem mergeHeader_found {header1 : DocIDElementHeader} {list2 : List DocIDElementHeader} {n : Int}
    (hnum : ∀ header2 ∈ list2, header1.docId = header2.docId → header2.numPositions = n)
    (hfound : ∃ header2 ∈ list2, header1.docId = header2.docId) :
    mergeHeader header1 list2 = do
      let numPositions ← intSum header1.numPositions n
      return some ⟨header1.docId, numPositions⟩ := by
  induction list2 with
  | nil =>
      obtain ⟨_, hmem, _⟩ := hfound
      cases hmem
  | cons header2 list2 ih =>
      by_cases hsame : header1.docId = header2.docId
      · rw [mergeHeader, if_pos hsame, hnum header2 (by simp) hsame]
      · rw [mergeHeader, if_neg hsame]
        refine ih (fun header hheader => hnum header (by simp [hheader])) ?_
        obtain ⟨header, hmem, hheader⟩ := hfound
        rcases List.mem_cons.mp hmem with rfl | hmem
        · exact absurd hheader hsame
        · exact ⟨header, hmem, hheader⟩

/-- What becomes of one document when the documents of one more word are
merged in. -/
theorem mergeHeader_rank {header1 : DocIDElementHeader} {list2 : List DocIDElementHeader} {r : Nat}
    (hrank : rankOf find words header1.docId = some r) (hnum : header1.numPositions = r)
    (hlist : Lists find [word] list2) :
    mergeHeader header1 list2 =
      match rankOf find (words ++ [word]) header1.docId with
      | none => .ok none
      | some r => if r ≤ INT_MAX then .ok (some ⟨header1.docId, (r : Nat)⟩) else .error .signedOverflow := by
  rw [rankOf_append, hrank, Option.bind_some]
  cases hcount : rankOf find [word] header1.docId with
  | none =>
      apply mergeHeader_none
      intro header2 hheader hsame
      obtain ⟨n, hn, _⟩ := (hlist header2).mp hheader
      rw [← hsame, hcount] at hn
      cases hn
  | some n =>
      have hmax : (INT_MAX : Int) = 2147483647 := rfl
      rw [mergeHeader_found (n := (n : Int))]
      · rw [hnum, Option.map_some]
        dsimp only
        by_cases hfit : r + n ≤ INT_MAX
        · rw [if_pos hfit, intSum_eq (by omega) (by unfold INT_MAX at hfit; omega)]
          rfl
        · rw [if_neg hfit, intSum, if_neg (by omega)]
          rfl
      · intro header2 hheader hsame
        obtain ⟨n', hn', hnum'⟩ := (hlist header2).mp hheader
        rw [← hsame, hcount] at hn'
        rw [hnum', Option.some.inj hn']
      · exact ⟨⟨header1.docId, n⟩, (hlist _).mpr ⟨n, hcount, rfl⟩, rfl⟩

def refined (find : Bytes → Option WordPostings) (words : List Bytes) (header : DocIDElementHeader) :
    Option DocIDElementHeader :=
  (rankOf find words header.docId).map fun r => ⟨header.docId, (r : Nat)⟩

theorem mergeResult_rank {list1 list2 : List DocIDElementHeader} (hlist : Lists find [word] list2)
    (hsound : ∀ header ∈ list1, ∃ r, rankOf find words header.docId = some r ∧ header.numPositions = (r : Nat)) :
    ((∀ header ∈ list1, ∀ r ∈ rankOf find (words ++ [word]) header.docId, r ≤ INT_MAX) ∧
      mergeResult list1 list2 = .ok (list1.filterMap (refined find (words ++ [word])))) ∨
    ((∃ header ∈ list1, ∃ r ∈ rankOf find (words ++ [word]) header.docId, INT_MAX < r) ∧
      mergeResult list1 list2 = .error .signedOverflow) := by
  induction list1 with
  | nil => exact .inl ⟨by simp, rfl⟩
  | cons header list1 ih =>
      obtain ⟨r, hrank, hnum⟩ := hsound header (by simp)
      have hhead := mergeHeader_rank hrank hnum hlist
      have hrest := ih fun header' hheader => hsound header' (by simp [hheader])
      rw [mergeResult]
      cases hnext : rankOf find (words ++ [word]) header.docId with
      | none =>
          rw [hnext] at hhead
          have hdrop : refined find (words ++ [word]) header = none := by rw [refined, hnext]; rfl
          rw [hhead, Run.ok_bind, List.filterMap_cons_none hdrop]
          rcases hrest with ⟨hfit, hrun⟩ | ⟨⟨header', hmem, hover⟩, hrun⟩
          · exact .inl ⟨by simpa [hnext] using hfit, by rw [hrun]; rfl⟩
          · exact .inr ⟨⟨header', by simp [hmem], hover⟩, by rw [hrun]; rfl⟩
      | some r' =>
          rw [hnext] at hhead
          dsimp only at hhead
          by_cases hle : r' ≤ INT_MAX
          · have hkeep : refined find (words ++ [word]) header = some ⟨header.docId, (r' : Nat)⟩ := by
              rw [refined, hnext]
              rfl
            rw [hhead, if_pos hle, Run.ok_bind, List.filterMap_cons_some hkeep]
            rcases hrest with ⟨hfit, hrun⟩ | ⟨⟨header', hmem, hover⟩, hrun⟩
            · exact .inl ⟨by simpa [hnext, hle] using hfit, by rw [hrun]; rfl⟩
            · exact .inr ⟨⟨header', by simp [hmem], hover⟩, by rw [hrun]; rfl⟩
          · exact .inr ⟨⟨header, by simp, r', hnext, Nat.lt_of_not_le hle⟩, by rw [hhead, if_neg hle]; rfl⟩

theorem Lists.refined {list1 : List DocIDElementHeader} (hlist : Lists find words list1) :
    Lists find (words ++ query) (list1.filterMap (refined find (words ++ query))) := by
  intro header
  rw [List.mem_filterMap]
  constructor
  · rintro ⟨header1, _, hheader⟩
    obtain ⟨r, hr, rfl⟩ := Option.map_eq_some_iff.mp hheader
    exact ⟨r, hr, rfl⟩
  · rintro ⟨r, hr, hnum⟩
    obtain ⟨r', hr'⟩ := rankOf_prefix hr
    refine ⟨⟨header.docId, (r' : Nat)⟩, (hlist _).mpr ⟨r', hr', rfl⟩, ?_⟩
    rw [QueryProcessor.refined, hr, Option.map_some, ← hnum]

theorem mergeResult_lists {list1 list2 : List DocIDElementHeader} (hlist : Lists find words list1)
    (hlist2 : Lists find [word] list2) :
    ((∀ docId, ∀ r ∈ rankOf find (words ++ [word]) docId, r ≤ INT_MAX) ∧
      ∃ result, mergeResult list1 list2 = .ok result ∧ Lists find (words ++ [word]) result) ∨
    (¬(∀ docId, ∀ r ∈ rankOf find (words ++ [word]) docId, r ≤ INT_MAX) ∧
      mergeResult list1 list2 = .error .signedOverflow) := by
  rcases mergeResult_rank hlist2 (fun header hheader => (hlist header).mp hheader) with
    ⟨hfit, hmerge⟩ | ⟨⟨header, _, r, hr, hover⟩, hmerge⟩
  · refine .inl ⟨?_, _, hmerge, hlist.refined⟩
    intro docId r hr
    obtain ⟨r', hr'⟩ := rankOf_prefix hr
    exact hfit ⟨docId, (r' : Nat)⟩ ((hlist _).mpr ⟨r', hr', rfl⟩) r hr
  · exact .inr ⟨fun hfit => absurd (hfit header.docId r hr) (Nat.not_le.mpr hover), hmerge⟩

theorem Lists.rankOf_nil (h : Lists find words []) (docId : DocID) : rankOf find words docId = none := by
  apply Option.eq_none_iff_forall_ne_some.mpr
  intro r hr
  have hmem := (h ⟨docId, (r : Nat)⟩).mpr ⟨r, hr, rfl⟩
  cases hmem

theorem Lists.nil_append (h : Lists find words []) (more : List Bytes) : Lists find (words ++ more) [] := by
  intro header
  rw [rankOf_append, h.rankOf_nil]
  simp

end

/-- The reader finds the postings of a word, if there are any. -/
def FindsWordPostings (image : FileImage) (find : Bytes → Option WordPostings) (itr : HashTableReader) (word : Bytes) :
    Prop :=
  ∃ res, Returns image (IndexTableReader.lookupWord itr word) res ∧
    match res with
    | none => find word = none
    | some didtr => ∃ wp, find word = some wp ∧ IndexTableReader.ReadsPostings image wp didtr

section

variable {image : FileImage} {find : Bytes → Option WordPostings} {dtr itr : HashTableReader} {word : Bytes}
  {words query : List Bytes}

theorem getDocIDList_lists {wp : WordPostings} {didtr : HashTableReader} (hword : find word = some wp)
    (hreads : IndexTableReader.ReadsPostings image wp didtr) :
    ∃ idList, Returns image (DocIDTableReader.getDocIDList didtr) idList ∧ Lists find [word] idList := by
  obtain ⟨off, rfl, ht⟩ := hreads
  exact ⟨_, DocIDTableReader.getDocIDList_returns ht, lists_postings hword⟩

/-- A table that fits in the file has fewer positions than an int can count. -/
theorem countOf_le {wp : WordPostings} {didtr : HashTableReader} (hword : find word = some wp)
    (hreads : IndexTableReader.ReadsPostings image wp didtr) (docId : DocID) :
    ∀ r ∈ rankOf find [word] docId, r ≤ INT_MAX := by
  intro r hr
  obtain ⟨off, rfl, ht⟩ := hreads
  rw [rankOf_singleton, countOf, hword, Option.bind_some, Option.mem_def, Option.map_eq_some_iff] at hr
  obtain ⟨p, hp, rfl⟩ := hr
  have hmem : (⟨docId, p⟩ : HTKeyValue Postings) ∈ wp.postings.pairs := HashTable.mem_pairs.mpr hp
  obtain ⟨i, hi⟩ := List.getElem?_of_mem hmem
  have hsize := Layout.total_take_add_le postingFormat.size hi
  have helem : postingFormat.size ⟨docId, p⟩ = 12 + 4 * p.numElements := rfl
  have htable := postingFormat.tableSize_eq wp.postings
  have hfits := ht.fits
  unfold INT_MAX
  omega

/-- The loop over the further words, from the documents that have the words
before them. -/
theorem intersectWords_spec (hfind : ∀ word ∈ query, FindsWordPostings image find itr word)
    {idList : List DocIDElementHeader} (hlist : Lists find words idList) :
    (SumsFitAfter find words query ∧ ∃ candidates, Returns image (intersectWords itr query idList) candidates ∧
      (candidates.isValid = true → Lists find (words ++ query) candidates.idList)) ∨
    (¬SumsFitAfter find words query ∧ Overflows image (intersectWords itr query idList)) := by
  induction query generalizing words idList with
  | nil =>
      left
      refine ⟨?_, ⟨true, idList, 0⟩, .pure image _, ?_⟩
      · intro q hq hne
        exact absurd (List.prefix_nil.mp hq) hne
      · intro _
        rwa [List.append_nil]
  | cons word query ih =>
      obtain ⟨res, hres, hfound⟩ := hfind word (by simp)
      cases res with
      | none =>
          left
          have hnone (docId : DocID) : rankOf find (words ++ [word]) docId = none := by
            rw [rankOf_append, rankOf_singleton, countOf, hfound]
            cases rankOf find words docId <;> rfl
          refine ⟨sumsFitAfter_cons.mpr ⟨by simp [hnone], sumsFitAfter_of_none hnone⟩, ⟨false, idList, 0⟩,
            hres.bind (.pure image _), by simp⟩
      | some didtr =>
          obtain ⟨wp, hword, hreads⟩ := hfound
          obtain ⟨idListTmp, htmp, hlistTmp⟩ := getDocIDList_lists hword hreads
          have hwords : words ++ word :: query = words ++ [word] ++ query := List.append_cons ..
          rw [sumsFitAfter_cons, hwords]
          rcases mergeResult_lists hlist hlistTmp with ⟨hfit, idList', hmerge, hlist'⟩ | ⟨hnot, hmerge⟩
          · have hrun : Returns image (ofRun (mergeResult idList idListTmp)) idList' := by
              rw [hmerge]
              exact .pure image _
            by_cases hempty : idList'.length = 0
            · obtain rfl := List.length_eq_zero_iff.mp hempty
              left
              refine ⟨⟨hfit, sumsFitAfter_of_none hlist'.rankOf_nil⟩, ⟨true, [], 1⟩, ?_, ?_⟩
              · exact hres.bind (htmp.bind (hrun.bind (.pure image _)))
              · intro _
                exact hlist'.nil_append query
            · rcases ih (fun w hw => hfind w (List.mem_cons_of_mem word hw)) hlist' with
                ⟨hrest, candidates, hcand, hvalid⟩ | ⟨hnot, hover⟩
              · left
                refine ⟨⟨hfit, hrest⟩, candidates, ?_, hvalid⟩
                refine hres.bind (htmp.bind (hrun.bind ?_))
                rw [if_neg hempty]
                exact hcand
              · right
                refine ⟨fun h => hnot h.2, ?_⟩
                refine hres.bind_overflows (htmp.bind_overflows (hrun.bind_overflows ?_))
                rw [if_neg hempty]
                exact hover
          · right
            refine ⟨fun h => hnot h.1, ?_⟩
            refine hres.bind_overflows (htmp.bind_overflows (Overflows.bind ?_))
            rw [hmerge]
            intro pos linked
            rfl

theorem documentResults_ends {idList : List DocIDElementHeader} (hdocs : ∀ header ∈ idList,
      ∃ name, Returns image (DocTableReader.lookupDocID dtr header.docId) (some name)) :
    ∃ results, Returns image (documentResults dtr idList) results := by
  induction idList with
  | nil => exact ⟨[], .pure image _⟩
  | cons header idList ih =>
      obtain ⟨name, hname⟩ := hdocs header (by simp)
      obtain ⟨results, hrest⟩ := ih fun header' hheader => hdocs header' (by simp [hheader])
      exact ⟨_, hname.bind (hrest.bind (.pure image _))⟩

/-- A query of one index ends with results exactly when no sum overflows. -/
theorem queryIndex_spec (hfind : ∀ w ∈ word :: query, FindsWordPostings image find itr w)
    (hdocs : ∀ wp docId p, find word = some wp → wp.postings.lookup docId = some p →
      ∃ name, Returns image (DocTableReader.lookupDocID dtr docId) (some name)) :
    (SumsFit find (word :: query) ∧ ∃ out, Returns image (queryIndex dtr itr word query) out) ∨
    (¬SumsFit find (word :: query) ∧ Overflows image (queryIndex dtr itr word query)) := by
  obtain ⟨res, hres, hfound⟩ := hfind word (by simp)
  cases res with
  | none =>
      left
      have hnone (docId : DocID) : rankOf find [word] docId = none := by
        rw [rankOf_singleton, countOf, hfound]
        rfl
      exact ⟨(sumsFit_cons (by simp [hnone])).mpr (sumsFitAfter_of_none hnone), ([], 0), hres.bind (.pure image _)⟩
  | some didtr =>
      obtain ⟨wp, hword, hreads⟩ := hfound
      obtain ⟨idList, hids, hlist⟩ := getDocIDList_lists hword hreads
      rw [sumsFit_cons (countOf_le hword hreads)]
      rcases intersectWords_spec (fun w hw => hfind w (List.mem_cons_of_mem word hw)) hlist with
        ⟨hfit, candidates, hcand, hvalid⟩ | ⟨hnot, hover⟩
      · left
        refine ⟨hfit, ?_⟩
        by_cases hsome : candidates.isValid = true
        · have hall := hvalid hsome
          have hnames : ∀ header ∈ candidates.idList,
              ∃ name, Returns image (DocTableReader.lookupDocID dtr header.docId) (some name) := by
            intro header hheader
            obtain ⟨r, hr, _⟩ := (hall header).mp hheader
            obtain ⟨n, hn⟩ := rankOf_prefix hr
            rw [rankOf_singleton, countOf, hword, Option.bind_some, Option.map_eq_some_iff] at hn
            obtain ⟨p, hp, _⟩ := hn
            exact hdocs wp header.docId p hword hp
          obtain ⟨results, hresults⟩ := documentResults_ends hnames
          refine ⟨(results, candidates.live), hres.bind (hids.bind (hcand.bind ?_))⟩
          rw [if_pos hsome]
          exact hresults.bind (.pure image _)
        · refine ⟨([], candidates.live), hres.bind (hids.bind (hcand.bind ?_))⟩
          rw [if_neg hsome]
          exact .pure image _
      · exact .inr ⟨hnot, hres.bind_overflows (hids.bind_overflows hover.bind)⟩

end

section

variable {mi : MemIndex} {adds : List Posting} {word : Bytes} {words query : List Bytes} {docId : DocID}

theorem stored_eq_some (hidx : mi.Indexes adds) (hwords : ∀ a ∈ adds, a.word.length ≤ 32767) {wp : WordPostings} :
    mi.stored word = some wp ↔ mi.lookup (hashString word) = some wp ∧ wp.word = word := by
  have hsame {kv : HTKeyValue WordPostings} (hkv : kv ∈ mi.pairs) : storedChars kv.value.word = kv.value.word := by
    obtain ⟨a, ha, hword, _⟩ := hidx.words _ _ (HashTable.mem_pairs.mp hkv)
    apply storedChars_of_le
    rw [← hword]
    exact hwords a ha
  have hfound {wp : WordPostings} (h : mi.stored word = some wp) :
      mi.lookup (hashString word) = some wp ∧ wp.word = word := by
    obtain ⟨kv, hfind, rfl⟩ := Option.map_eq_some_iff.mp h
    have hkv := mem_pairs_of_chain (List.mem_of_find?_eq_some hfind)
    have hword : kv.value.word = word := by
      rw [← hsame hkv]
      simpa using List.find?_some hfind
    refine ⟨?_, hword⟩
    rw [← hword, hidx.hash_word hkv]
    exact HashTable.mem_pairs.mp hkv
  constructor
  · exact hfound
  · rintro ⟨hl, hword⟩
    have hchain := HashTable.lookup_eq_some.mp hl
    cases hstored : mi.stored word with
    | none =>
        rw [MemIndex.stored, Option.map_eq_none_iff, List.find?_eq_none] at hstored
        exact absurd hword (by simpa [hsame (mem_pairs_of_chain hchain)] using hstored _ hchain)
    | some wp' =>
        rw [← hl]
        exact (hfound hstored).1.symm

theorem countOf_stored (hidx : mi.Indexes adds) (hwords : ∀ a ∈ adds, a.word.length ≤ 32767) {n : Nat} :
    countOf mi.stored word docId = some n ↔ Contains adds word docId ∧ n = positionCount adds word docId := by
  rw [countOf]
  cases hstored : mi.stored word with
  | none =>
      have hlacks : ¬Contains adds word docId := by
        rintro ⟨a, ha, rfl, _⟩
        obtain ⟨wp, hl, hword⟩ := hidx.word a ha
        rw [(stored_eq_some hidx hwords).mpr ⟨hl, hword⟩] at hstored
        cases hstored
      simp [hlacks]
  | some wp =>
      obtain ⟨hl, hword⟩ := (stored_eq_some hidx hwords).mp hstored
      have hfree : ∀ a ∈ adds, hashString word = hashString a.word → word = a.word := by
        intro a ha hhash
        obtain ⟨wp', hl', hword'⟩ := hidx.word a ha
        rw [← hhash, hl] at hl'
        rw [← hword, ← hword', Option.some.inj hl']
      have hcases := MemIndex.postingsAt_cases hidx hfree docId
      rw [MemIndex.postingsAt, hl, Option.bind_some] at hcases
      rw [Option.bind_some]
      cases hp : wp.postings.lookup docId with
      | none =>
          rw [hp] at hcases
          simp [hcases]
      | some p =>
          rw [hp] at hcases
          simp [hcases.1, hcases.2, eq_comm]

/-- The ranks that an index file has for words are sums over what was added. -/
theorem rankOf_stored (hidx : mi.Indexes adds) (hwords : ∀ a ∈ adds, a.word.length ≤ 32767) {r : Nat} :
    rankOf mi.stored words docId = some r ↔ ContainsAll adds words docId ∧ r = rankSum adds words docId := by
  induction words generalizing r with
  | nil => simp [rankOf, ContainsAll, rankSum, eq_comm]
  | cons word words ih =>
      simp only [rankOf, Option.bind_eq_some_iff, Option.map_eq_some_iff, ih, countOf_stored hidx hwords]
      constructor
      · rintro ⟨_, ⟨hone, rfl⟩, _, ⟨hall, rfl⟩, rfl⟩
        exact ⟨by simpa [ContainsAll, hone] using hall, by simp [rankSum]⟩
      · rintro ⟨hall, rfl⟩
        exact ⟨_, ⟨hall word (by simp), rfl⟩, _, ⟨fun w hw => hall w (by simp [hw]), rfl⟩, by simp [rankSum]⟩

theorem sumsFit_stored (hidx : mi.Indexes adds) (hwords : ∀ a ∈ adds, a.word.length ≤ 32767) :
    SumsFit mi.stored query ↔
      ∀ q, q <+: query → ∀ docId, ContainsAll adds q docId → rankSum adds q docId ≤ INT_MAX := by
  constructor
  · intro h q hq docId hall
    exact h q hq docId _ ((rankOf_stored hidx hwords).mpr ⟨hall, rfl⟩)
  · intro h q hq docId r hr
    obtain ⟨hall, rfl⟩ := (rankOf_stored hidx hwords).mp hr
    exact h q hq docId hall

end

/-- The loop over the index files, when a query of each ends in one of two
ways. -/
theorem queryIndices_ends {ι : Type} {dtr itr : ι → HashTableReader} {image : ι → FileImage}
    {find : ι → Bytes → Option WordPostings} {word : Bytes} {query : List Bytes} {readers : List IndexReaders}
    {indices : List ι}
    (hserves : List.Forall₂ (fun r x => r.dtr = dtr x ∧ r.itr = itr x ∧ r.file.image = image x) readers indices)
    (hends : ∀ x ∈ indices,
      (SumsFit (find x) (word :: query) ∧
        ∃ out, Returns (image x) (queryIndex (dtr x) (itr x) word query) out) ∨
      (¬SumsFit (find x) (word :: query) ∧ Overflows (image x) (queryIndex (dtr x) (itr x) word query))) :
    ((∀ x ∈ indices, SumsFit (find x) (word :: query)) ∧ ∃ out, queryIndices word query readers = .ok out) ∨
    ((∃ x ∈ indices, ¬SumsFit (find x) (word :: query)) ∧
      queryIndices word query readers = .error .signedOverflow) := by
  induction hserves with
  | nil => exact .inl ⟨by simp, _, rfl⟩
  | @cons r x readers indices hr _ ih =>
      obtain ⟨hdtr, hitr, himage⟩ := hr
      obtain ⟨hx, hrest⟩ := List.forall_mem_cons.mp hends
      rw [queryIndices, hdtr, hitr]
      rcases hx with ⟨hfit, ⟨results, live⟩, hreturns⟩ | ⟨hnot, hover⟩
      · obtain ⟨pos, hrun⟩ := hreturns r.file.pos r.file.linked
        rw [← himage] at hrun
        rw [hrun, Run.ok_bind]
        rcases ih hrest with ⟨hfits, ⟨more, liveMore, readers'⟩, hmore⟩ | ⟨⟨y, hy, hnot⟩, hmore⟩
        · exact .inl ⟨List.forall_mem_cons.mpr ⟨hfit, hfits⟩, _, by rw [hmore]; rfl⟩
        · exact .inr ⟨⟨y, List.mem_cons_of_mem x hy, hnot⟩, by rw [hmore]; rfl⟩
      · have hrun := hover r.file.pos r.file.linked
        rw [← himage] at hrun
        exact .inr ⟨⟨x, List.mem_cons_self, hnot⟩, by rw [hrun]; rfl⟩

/-- The readers are those of these index files. -/
def ServesCrawled (readers : List IndexReaders) (indices : List CrawledFile) : Prop :=
  List.Forall₂ (fun r x => r.dtr = x.dtr ∧ r.itr = x.itr ∧ r.file.image = x.file.image) readers indices

theorem openIndices_crawled (validate : Bool) {indices : List CrawledFile} (hfit : ∀ x ∈ indices, x.OffsetsFit) :
    ∃ readers, openIndices validate (indices.map CrawledFile.file) = .ok readers ∧
      ServesCrawled readers indices := by
  induction indices with
  | nil => exact ⟨[], rfl, .nil⟩
  | cons x indices ih =>
      obtain ⟨hx, hrest⟩ := List.forall_mem_cons.mp hfit
      obtain ⟨readers, hopen, hserves⟩ := ih hrest
      obtain ⟨pos, hrun⟩ := hx.opens validate
      refine ⟨⟨x.dtr, x.itr, ⟨x.file.image, pos, true⟩⟩ :: readers, ?_, .cons ⟨rfl, rfl, rfl⟩ hserves⟩
      rw [List.map_cons, openIndices, hrun, Run.ok_bind]
      simp only [hopen, Run.ok_bind]
      rfl

theorem openIndices_large (validate : Bool) {indices : List CrawledFile} (hlarge : ∃ x ∈ indices, ¬x.OffsetsFit) :
    openIndices validate (indices.map CrawledFile.file) = .error .verify333 := by
  induction indices with
  | nil => simp at hlarge
  | cons x indices ih =>
      rw [List.map_cons, openIndices]
      by_cases hx : x.OffsetsFit
      · obtain ⟨y, hy, hnot⟩ := hlarge
        have hrest : y ∈ indices := by
          rcases List.mem_cons.mp hy with rfl | hrest
          · exact absurd hx hnot
          · exact hrest
        obtain ⟨pos, hrun⟩ := hx.opens validate
        rw [hrun, Run.ok_bind]
        simp only [ih ⟨y, hrest, hnot⟩, Run.error_bind]
      · rw [x.opens_large hx]
        rfl

theorem queryIndex_crawled {x : CrawledFile} (hx : x.OffsetsFit) (word : Bytes) (query : List Bytes) :
    (SumsFit x.crawl.index.stored (word :: query) ∧
      ∃ out, Returns x.file.image (queryIndex x.dtr x.itr word query) out) ∨
    (¬SumsFit x.crawl.index.stored (word :: query) ∧ Overflows x.file.image (queryIndex x.dtr x.itr word query)) := by
  apply queryIndex_spec
  · intro w _
    exact hx.lookupWord w
  · intro wp docId p hword hp
    obtain ⟨name, hname⟩ := CrawledFile.registered hword hp
    have hlook := hx.lookupDocID docId
    rw [hname, Option.map_some] at hlook
    exact ⟨_, hlook⟩

theorem queryIndices_spec_crawled (word : Bytes) (query : List Bytes) {readers : List IndexReaders}
    {indices : List CrawledFile} (hserves : ServesCrawled readers indices) (hfit : ∀ x ∈ indices, x.OffsetsFit) :
    ((∀ x ∈ indices, SumsFit x.crawl.index.stored (word :: query)) ∧
      ∃ out, queryIndices word query readers = .ok out) ∨
    ((∃ x ∈ indices, ¬SumsFit x.crawl.index.stored (word :: query)) ∧
      queryIndices word query readers = .error .signedOverflow) :=
  queryIndices_ends hserves fun x hx => queryIndex_crawled (hfit x hx) word query

end QueryProcessor

end SearchEngine
