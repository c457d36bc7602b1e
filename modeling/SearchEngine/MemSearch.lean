import SearchEngine.MemIndex
import Mathlib.Algebra.Order.BigOperators.Group.List
import Mathlib.Algebra.Order.Group.Nat

namespace SearchEngine

structure SearchResult where
  docId : DocID
  rank : Nat
  deriving DecidableEq

namespace MemIndex

def searchResultComparator (sr1 sr2 : SearchResult) : Int :=
  if sr1.rank > sr2.rank then 1 else if sr1.rank < sr2.rank then -1 else 0

def collectResults (postings : HashTable Postings) :
    Nat → HTIterator → LinkedList SearchResult → Run (Option (LinkedList SearchResult))
  | 0, _, _ => .error .outOfFuel
  | fuel + 1, it, retList => do
      if ← HTIterator.isValid postings it then
        match ← HTIterator.get postings it with
        | none => return none
        | some kv =>
            let retList := retList.append ⟨kv.key, kv.value.numElements⟩
            let (it, _) ← HTIterator.next postings it
            collectResults postings fuel it retList
      else return some retList

/-- The loop over the results for one more query word. The number of rounds
is fixed before any result is removed. -/
def intersectResults (postings : HashTable Postings) :
    Nat → LLIterator → LinkedList SearchResult → Run (LinkedList SearchResult)
  | 0, _, retList => .ok retList
  | rounds + 1, llIt, retList => do
      let sr ← LLIterator.get retList llIt
      match ← postings.find sr.docId with
      | some kv =>
          let rank ← intAdd sr.rank kv.value.numElements
          let retList := retList.modify llIt.node fun sr => { sr with rank := rank }
          let (llIt, _) ← LLIterator.next retList llIt
          intersectResults postings rounds llIt retList
      | none =>
          let (retList, llIt, _) ← LLIterator.remove retList llIt
          intersectResults postings rounds llIt retList

def searchRest (index : MemIndex) : List Bytes → LinkedList SearchResult → Run (Option (LinkedList SearchResult))
  | [], retList => return some retList
  | word :: query, retList => do
      match ← index.find (hashString word) with
      | none => return none
      | some kv =>
          let retList ← intersectResults kv.value.postings retList.numElements (LLIterator.allocate retList)
            retList
          if retList.numElements = 0 then return none
          else searchRest index query retList

def search (index : MemIndex) : List Bytes → Run (Option (LinkedList SearchResult))
  | [] => return none
  | word :: query => do
      match ← index.find (hashString word) with
      | none => return none
      | some kv =>
          let it ← HTIterator.allocate kv.value.postings
          match ← collectResults kv.value.postings (kv.value.postings.numElements + 1) it .allocate with
          | none => return none
          | some retList =>
              match ← searchRest index query retList with
              | none => return none
              | some retList => return some (← retList.sort false searchResultComparator)

open HTIterator

theorem collectResults_spec {postings : HashTable Postings} (rest : List (HTKeyValue Postings)) (fuel : Nat)
    (hfuel : rest.length < fuel) (it : HTIterator) (hit : Points postings it rest)
    (retList : LinkedList SearchResult) :
    ∃ l, collectResults postings fuel it retList = .ok (some l) ∧
      l.payloads = retList.payloads ++ rest.map fun kv => ⟨kv.key, kv.value.numElements⟩ := by
  induction rest generalizing fuel it retList with
  | nil =>
      obtain ⟨fuel, rfl⟩ := Nat.exists_eq_succ_of_ne_zero (Nat.ne_of_gt hfuel)
      exact ⟨retList, by simp [collectResults, isValid_nil hit], by simp⟩
  | cons kv rest ih =>
      obtain ⟨fuel, rfl⟩ := Nat.exists_eq_succ_of_ne_zero (Nat.ne_of_gt (Nat.zero_lt_of_lt hfuel))
      obtain ⟨it', hnext, hit'⟩ := next_cons hit
      obtain ⟨l, hl, hp⟩ := ih fuel (by simp only [List.length_cons] at hfuel; omega) it' hit'
        (retList.append ⟨kv.key, kv.value.numElements⟩)
      refine ⟨l, ?_, by simp [hp]⟩
      simp only [collectResults, isValid_cons hit, get_cons hit, Run.ok_bind, if_true, hnext]
      exact hl

def refineResult (postings : HashTable Postings) (sr : SearchResult) : Option SearchResult :=
  (postings.lookup sr.docId).map fun p => ⟨sr.docId, sr.rank + p.numElements⟩

/-- The iterator is on the first of the results still to be looked at, and
the number of rounds left is theirs. Wherever a removal leaves the iterator
after the last of them, it is not used again. -/
theorem intersectResults_spec {postings : HashTable Postings} (todo : List (LLNode SearchResult))
    (retList : LinkedList SearchResult) (done : List (LLNode SearchResult))
    (hl : retList.nodes = done ++ todo) (llIt : LLIterator)
    (hit : ∀ n rest, todo = n :: rest → llIt = ⟨some n.addr⟩)
    (hfit : ∀ n ∈ todo, ∀ sr ∈ refineResult postings n.payload, sr.rank ≤ INT_MAX) :
    ∃ l, intersectResults postings todo.length llIt retList = .ok l ∧
      l.payloads = done.map LLNode.payload ++ (todo.map LLNode.payload).filterMap (refineResult postings) := by
  induction todo generalizing retList done llIt with
  | nil => exact ⟨retList, rfl, by simp [LinkedList.payloads, hl]⟩
  | cons n todo ih =>
      obtain rfl := hit n todo rfl
      have hfit' : ∀ m ∈ todo, ∀ sr ∈ refineResult postings m.payload, sr.rank ≤ INT_MAX :=
        fun m hm => hfit m (List.mem_cons_of_mem n hm)
      simp only [List.length_cons, intersectResults, LLIterator.get_eq hl, Run.ok_bind, HashTable.find_eq]
      cases hlook : postings.lookup n.payload.docId with
      | some p =>
          have hrank : n.payload.rank + p.numElements ≤ INT_MAX :=
            hfit n (by simp) ⟨n.payload.docId, n.payload.rank + p.numElements⟩ (by simp [refineResult, hlook])
          have hadd : intAdd n.payload.rank p.numElements = .ok (n.payload.rank + p.numElements) :=
            intAdd_eq_ok.mpr ⟨hrank, rfl⟩
          have hmod := LLIterator.modify_nodes hl fun sr =>
            { sr with rank := n.payload.rank + p.numElements }
          have hnext := LLIterator.next_eq hmod
          obtain ⟨l, hrun, hp⟩ := ih _ (done ++ [⟨n.addr, ⟨n.payload.docId, n.payload.rank + p.numElements⟩⟩])
            (by rw [hmod]; simp) ⟨todo.head?.map LLNode.addr⟩ (by rintro m rest rfl; rfl) hfit'
          refine ⟨l, ?_, ?_⟩
          · simp only [Option.map_some, hadd, Run.ok_bind]
            rw [hnext]
            exact hrun
          · simp [hp, refineResult, hlook]
      | none =>
          obtain ⟨l₁, hrem, hnodes⟩ := LLIterator.remove_spec hl
          obtain ⟨l, hrun, hp⟩ := ih l₁ done hnodes ⟨(todo.head?.or done.getLast?).map LLNode.addr⟩
            (by rintro m rest rfl; rfl) hfit'
          refine ⟨l, ?_, ?_⟩
          · simp only [Option.map_none, hrem, Run.ok_bind]
            exact hrun
          · simp [hp, refineResult, hlook]

/-- The number of positions of all query words in a document that has them
all, repeated words counted each time. -/
def queryRank (index : MemIndex) : List Bytes → DocID → Option Nat
  | [], _ => some 0
  | word :: query, docId =>
      (index.postingsAt (hashString word) docId).bind fun p =>
        (index.queryRank query docId).map fun r => p.numElements + r

def refineBy (index : MemIndex) (query : List Bytes) (sr : SearchResult) : Option SearchResult :=
  (index.queryRank query sr.docId).map fun r => ⟨sr.docId, sr.rank + r⟩

theorem refineBy_nil (index : MemIndex) : refineBy index [] = some := by
  funext sr
  simp [refineBy, queryRank]

theorem refineBy_cons (index : MemIndex) (word : Bytes) (query : List Bytes) (sr : SearchResult) :
    refineBy index (word :: query) sr = (refineBy index [word] sr).bind (refineBy index query) := by
  simp only [refineBy, queryRank]
  cases index.postingsAt (hashString word) sr.docId with
  | none => rfl
  | some p => simp [refineBy, Function.comp_def, Nat.add_assoc]

theorem refineBy_single {index : MemIndex} {word : Bytes} {wp : WordPostings}
    (h : index.lookup (hashString word) = some wp) : refineBy index [word] = refineResult wp.postings := by
  funext sr
  simp only [refineBy, queryRank, refineResult, postingsAt, h, Option.bind_some]
  cases wp.postings.lookup sr.docId <;> simp

theorem filterMap_refineBy_cons (index : MemIndex) (word : Bytes) (query : List Bytes)
    (rs : List SearchResult) : rs.filterMap (refineBy index (word :: query)) =
      (rs.filterMap (refineBy index [word])).filterMap (refineBy index query) := by
  rw [List.filterMap_filterMap]
  exact List.filterMap_congr fun sr _ => refineBy_cons index word query sr

/-- No rank along the way leaves the range of an int. -/
def RanksFit (index : MemIndex) (query : List Bytes) (rs : List SearchResult) : Prop :=
  ∀ q, q <+: query → ∀ sr ∈ rs.filterMap (refineBy index q), sr.rank ≤ INT_MAX

theorem RanksFit.tail {index : MemIndex} {word : Bytes} {query : List Bytes} {rs : List SearchResult}
    (h : RanksFit index (word :: query) rs) :
    RanksFit index query (rs.filterMap (refineBy index [word])) := fun q hq sr hsr =>
  h (word :: q) (List.cons_prefix_cons.mpr ⟨rfl, hq⟩) sr (by rwa [filterMap_refineBy_cons])

theorem searchRest_spec (index : MemIndex) (query : List Bytes) (retList : LinkedList SearchResult)
    (hfit : RanksFit index query retList.payloads) :
    ∃ res, searchRest index query retList = .ok res ∧
      match res with
      | none => retList.payloads.filterMap (refineBy index query) = []
      | some l => l.payloads = retList.payloads.filterMap (refineBy index query) ∧
          (l.payloads = [] → retList.payloads = []) := by
  induction query generalizing retList with
  | nil => exact ⟨some retList, rfl, by simp [refineBy_nil], id⟩
  | cons word query ih =>
      rw [filterMap_refineBy_cons]
      simp only [searchRest, HashTable.find_eq, Run.ok_bind]
      cases hlook : index.lookup (hashString word) with
      | none =>
          refine ⟨none, rfl, ?_⟩
          have hnone (sr : SearchResult) : refineBy index [word] sr = none := by
            simp [refineBy, queryRank, postingsAt, hlook]
          rw [List.filterMap_congr (g := fun _ => none) fun sr _ => hnone sr]
          simp
      | some wp =>
          have hsingle := refineBy_single hlook
          have hword := hfit [word] (List.cons_prefix_cons.mpr ⟨rfl, List.nil_prefix⟩)
          rw [hsingle] at hword
          obtain ⟨l, hrun, hp⟩ := intersectResults_spec retList.nodes retList []  rfl
            (LLIterator.allocate retList) (fun n rest h => by simp [LLIterator.allocate, h])
            (fun n hn sr hsr => hword sr (List.mem_filterMap.mpr
              ⟨n.payload, List.mem_map_of_mem hn, hsr⟩))
          have hpl : l.payloads = retList.payloads.filterMap (refineBy index [word]) := by
            rw [hp, hsingle]
            rfl
          have hlen : intersectResults wp.postings retList.numElements (LLIterator.allocate retList) retList =
              .ok l := hrun
          simp only [Option.map_some, hlen, Run.ok_bind]
          split
          · next hzero =>
            have hempty : l.payloads = [] :=
              List.eq_nil_of_length_eq_zero (by rw [LinkedList.length_payloads, hzero])
            exact ⟨none, rfl, by rw [← hpl, hempty]; rfl⟩
          · next hpos =>
            obtain ⟨res, hres, hspec⟩ := ih l (hpl ▸ hfit.tail)
            refine ⟨res, hres, ?_⟩
            cases res with
            | none => rwa [← hpl]
            | some l' =>
                refine ⟨by rw [← hpl]; exact hspec.1, fun hempty => ?_⟩
                have hl := hspec.2 hempty
                exact absurd (by rw [← LinkedList.length_payloads, hl]; rfl) hpos

theorem exchanges_iff (x y : SearchResult) :
    LinkedList.exchanges false searchResultComparator x y = true ↔ x.rank < y.rank := by
  simp only [LinkedList.exchanges, searchResultComparator, Bool.false_eq_true, if_false, decide_eq_true_eq]
  split_ifs <;> omega

instance : Trans (fun x y : SearchResult => y.rank ≤ x.rank) (fun x y : SearchResult => y.rank ≤ x.rank)
    (fun x y : SearchResult => y.rank ≤ x.rank) := ⟨fun h₁ h₂ => Nat.le_trans h₂ h₁⟩

structure Ranked (index : MemIndex) (query : List Bytes) (rs : List SearchResult) : Prop where
  mem : ∀ sr, sr ∈ rs ↔ index.queryRank query sr.docId = some sr.rank
  nodup : (rs.map SearchResult.docId).Nodup
  sorted : rs.Pairwise fun x y => y.rank ≤ x.rank

def firstResults (postings : HashTable Postings) : List SearchResult :=
  postings.pairs.map fun kv => ⟨kv.key, kv.value.numElements⟩

theorem mem_firstResults {postings : HashTable Postings} {sr : SearchResult} :
    sr ∈ firstResults postings ↔
      (postings.lookup sr.docId).map LinkedList.numElements = some sr.rank := by
  simp only [firstResults, List.mem_map, HashTable.mem_pairs, Option.map_eq_some_iff]
  constructor
  · rintro ⟨kv, hkv, rfl⟩
    exact ⟨kv.value, hkv, rfl⟩
  · rintro ⟨p, hp, hrank⟩
    exact ⟨⟨sr.docId, p⟩, hp, by rw [hrank]⟩

theorem nodup_filterMap_refineBy {index : MemIndex} {query : List Bytes} {rs : List SearchResult}
    (h : (rs.map SearchResult.docId).Nodup) :
    ((rs.filterMap (refineBy index query)).map SearchResult.docId).Nodup := by
  have hsub : ((rs.filterMap (refineBy index query)).map SearchResult.docId).Sublist
      (rs.map SearchResult.docId) := by
    induction rs with
    | nil => exact .refl _
    | cons sr rs ih =>
        have hrest := ih (List.nodup_cons.mp h).2
        cases hq : index.queryRank query sr.docId with
        | none => simpa [refineBy, hq] using hrest.cons sr.docId
        | some r => simpa [refineBy, hq] using hrest.cons_cons sr.docId
  exact h.sublist hsub

theorem mem_refined {index : MemIndex} {word : Bytes} {query : List Bytes} {wp : WordPostings}
    (hlook : index.lookup (hashString word) = some wp) (sr : SearchResult) :
    sr ∈ (firstResults wp.postings).filterMap (refineBy index query) ↔
      index.queryRank (word :: query) sr.docId = some sr.rank := by
  have hpost : index.postingsAt (hashString word) sr.docId = wp.postings.lookup sr.docId := by
    rw [postingsAt, hlook]
    rfl
  simp only [List.mem_filterMap, mem_firstResults, queryRank, hpost, refineBy, Option.map_eq_some_iff,
    Option.bind_eq_some_iff]
  constructor
  · rintro ⟨sr₀, ⟨p, hp, hrank⟩, r, hr, rfl⟩
    exact ⟨p, hp, r, hr, by rw [hrank]⟩
  · rintro ⟨p, hp, r, hr, hrank⟩
    exact ⟨⟨sr.docId, p.numElements⟩, ⟨p, hp, rfl⟩, r, hr, by rw [hrank]⟩

theorem ranksFit_firstResults {index : MemIndex} {word : Bytes} {query : List Bytes} {wp : WordPostings}
    (hlook : index.lookup (hashString word) = some wp)
    (hfit : ∀ q, q <+: word :: query → ∀ docId, ∀ r ∈ index.queryRank q docId, r ≤ INT_MAX) :
    RanksFit index query (firstResults wp.postings) := by
  intro q hq sr hsr
  rw [mem_refined hlook] at hsr
  exact hfit (word :: q) (List.cons_prefix_cons.mpr ⟨rfl, hq⟩) sr.docId sr.rank hsr

/-- A search hands out the documents that have all words of the query, or
nothing when there is none. -/
theorem search_spec (index : MemIndex) (word : Bytes) (query : List Bytes)
    (hfit : ∀ q, q <+: word :: query → ∀ docId, ∀ r ∈ index.queryRank q docId, r ≤ INT_MAX) :
    ∃ res, search index (word :: query) = .ok res ∧
      match res with
      | none => ∀ docId, index.queryRank (word :: query) docId = none
      | some l => Ranked index (word :: query) l.payloads ∧ (l.payloads = [] →
          ∃ wp, index.lookup (hashString word) = some wp ∧ wp.postings.numElements = 0) := by
  simp only [search, HashTable.find_eq, Run.ok_bind]
  cases hlook : index.lookup (hashString word) with
  | none =>
      refine ⟨none, rfl, fun docId => ?_⟩
      simp [queryRank, postingsAt, hlook]
  | some wp =>
      obtain ⟨it, hit, hpoints⟩ := HTIterator.allocate_spec wp.postings
      obtain ⟨first, hfirst, hp⟩ := collectResults_spec wp.postings.pairs (wp.postings.numElements + 1)
        (by rw [HashTable.length_pairs]; omega) it hpoints .allocate
      rw [LinkedList.payloads_allocate, List.nil_append] at hp
      change first.payloads = firstResults wp.postings at hp
      obtain ⟨res, hres, hspec⟩ := searchRest_spec index query first (by
        rw [hp]
        exact ranksFit_firstResults hlook hfit)
      simp only [Option.map_some, hit, Run.ok_bind, hfirst, hres]
      cases res with
      | none =>
          refine ⟨none, rfl, fun docId => Option.eq_none_iff_forall_ne_some.mpr fun r hr => ?_⟩
          have hmem := (mem_refined hlook ⟨docId, r⟩).mpr hr
          rw [← hp, hspec] at hmem
          cases hmem
      | some l =>
          obtain ⟨l', hsort, hperm, hchain⟩ := l.sort_spec false searchResultComparator
            fun x y hxy => by
              rw [exchanges_iff] at hxy
              rw [← Bool.not_eq_true, exchanges_iff]
              omega
          simp only [hsort, Run.ok_bind]
          refine ⟨some l', rfl, ⟨fun sr => ?_, ?_, ?_⟩, fun hempty => ⟨wp, rfl, ?_⟩⟩
          · rw [hperm.mem_iff, hspec.1, hp, mem_refined hlook]
          · refine (hperm.map SearchResult.docId).nodup_iff.mpr ?_
            rw [hspec.1, hp]
            refine nodup_filterMap_refineBy ?_
            rw [firstResults, List.map_map]
            exact wp.postings.nodup_keys
          · have hdesc : l'.payloads.IsChain fun x y => y.rank ≤ x.rank := hchain.imp fun x y hxy => by
              rw [← Bool.not_eq_true, exchanges_iff] at hxy
              omega
            exact hdesc.pairwise
          · have hlen := hspec.2 (List.Perm.eq_nil (hempty ▸ hperm.symm))
            rw [← HashTable.length_pairs]
            rw [hp, firstResults, List.map_eq_nil_iff] at hlen
            rw [hlen]
            rfl

end MemIndex

section

variable (adds : List Posting)

/-- The document has the word: a posting list was added for the two. -/
def Contains (word : Bytes) (docId : DocID) : Prop := ∃ a ∈ adds, a.word = word ∧ a.docId = docId

def ContainsAll (query : List Bytes) (docId : DocID) : Prop := ∀ word ∈ query, Contains adds word docId

def positionCount (word : Bytes) (docId : DocID) : Nat :=
  ((adds.find? fun a => a.word = word ∧ a.docId = docId).map fun a => a.postings.numElements).getD 0

def rankSum (query : List Bytes) (docId : DocID) : Nat :=
  (query.map fun word => positionCount adds word docId).sum

theorem rankSum_le {k : Nat} (h : ∀ a ∈ adds, a.postings.numElements ≤ k) (query : List Bytes)
    (docId : DocID) : rankSum adds query docId ≤ query.length * k := by
  have hcount (word : Bytes) : positionCount adds word docId ≤ k := by
    rw [positionCount]
    cases hf : adds.find? fun a => a.word = word ∧ a.docId = docId with
    | none => exact Nat.zero_le k
    | some a => exact h a (List.mem_of_find?_eq_some hf)
  have hsum := List.sum_le_card_nsmul (query.map fun word => positionCount adds word docId) k (by simp [hcount])
  rwa [List.length_map, Nat.nsmul_eq_mul] at hsum

/-- No query word has the hash of a different indexed word. -/
def CollisionFree (query : List Bytes) : Prop :=
  ∀ word ∈ query, ∀ a ∈ adds, hashString word = hashString a.word → word = a.word

end

namespace MemIndex

theorem postingsAt_cases {index : MemIndex} {adds : List Posting} (hidx : Indexes index adds) {word : Bytes}
    (hfree : ∀ a ∈ adds, hashString word = hashString a.word → word = a.word) (docId : DocID) :
    match index.postingsAt (hashString word) docId with
    | none => ¬Contains adds word docId
    | some p => Contains adds word docId ∧ positionCount adds word docId = p.numElements := by
  cases hp : index.postingsAt (hashString word) docId with
  | none =>
      rintro ⟨a, ha, rfl, rfl⟩
      have hentry := (hidx.entries (hashString a.word) a.docId a.postings).mpr ⟨a, ha, rfl, rfl, rfl⟩
      simp [hp] at hentry
  | some p =>
      obtain ⟨a, ha, hhash, hdoc, _⟩ := (hidx.entries _ _ _).mp hp
      have hword : a.word = word := (hfree a ha hhash.symm).symm
      refine ⟨⟨a, ha, hword, hdoc⟩, ?_⟩
      have hsome : (adds.find? fun a => a.word = word ∧ a.docId = docId).isSome := by
        rw [List.find?_isSome]
        exact ⟨a, ha, by simp [hword, hdoc]⟩
      obtain ⟨b, hb⟩ := Option.isSome_iff_exists.mp hsome
      have hbw : b.word = word ∧ b.docId = docId := by simpa using List.find?_some hb
      have hentry := (hidx.entries (hashString word) docId b.postings).mpr
        ⟨b, List.mem_of_find?_eq_some hb, by rw [hbw.1], hbw.2, rfl⟩
      obtain rfl : p = b.postings := by simpa [hp] using hentry
      rw [positionCount, hb]
      rfl

theorem queryRank_eq_some {index : MemIndex} {adds : List Posting} (hidx : Indexes index adds)
    {query : List Bytes} (hfree : CollisionFree adds query) {docId : DocID} {r : Nat} :
    index.queryRank query docId = some r ↔ ContainsAll adds query docId ∧ r = rankSum adds query docId := by
  induction query generalizing r with
  | nil => simp [queryRank, ContainsAll, rankSum, eq_comm]
  | cons word query ih =>
      have hcases := postingsAt_cases hidx (hfree word (by simp)) docId
      have ih := fun r => ih (r := r) fun w hw => hfree w (by simp [hw])
      simp only [queryRank]
      cases hp : index.postingsAt (hashString word) docId with
      | none =>
          rw [hp] at hcases
          simp [ContainsAll, hcases]
      | some p =>
          rw [hp] at hcases
          simp only [Option.bind_some, Option.map_eq_some_iff, ih]
          constructor
          · rintro ⟨_, ⟨hall, rfl⟩, rfl⟩
            exact ⟨by simpa [ContainsAll, hcases.1] using hall, by simp [rankSum, hcases.2]⟩
          · rintro ⟨hall, rfl⟩
            refine ⟨rankSum adds query docId, ⟨fun w hw => hall w (by simp [hw]), rfl⟩, ?_⟩
            simp [rankSum, hcases.2]

theorem Indexes.inhabited {index : MemIndex} {adds : List Posting} (hidx : Indexes index adds) {key : UInt64}
    {wp : WordPostings} (h : index.lookup key = some wp) : wp.postings.numElements ≠ 0 := by
  intro hzero
  obtain ⟨a, ha, _, rfl⟩ := hidx.words key wp h
  have hentry := (hidx.entries (hashString a.word) a.docId a.postings).mpr ⟨a, ha, rfl, rfl, rfl⟩
  rw [postingsAt, h, Option.bind_some, HashTable.lookup_of_numElements_zero hzero] at hentry
  cases hentry

theorem queryRank_le {index : MemIndex} {adds : List Posting} (hidx : Indexes index adds) {query : List Bytes}
    (hfree : CollisionFree adds query)
    (hfit : ∀ q, q <+: query → ∀ docId, ContainsAll adds q docId → rankSum adds q docId ≤ INT_MAX) :
    ∀ q, q <+: query → ∀ docId, ∀ r ∈ index.queryRank q docId, r ≤ INT_MAX := by
  intro q hq docId r hr
  obtain ⟨hall, rfl⟩ := (queryRank_eq_some hidx fun w hw => hfree w (hq.mem hw)).mp hr
  exact hfit q hq docId hall

/-- Search is conjunctive and exact, as long as no rank leaves the range of an
int on the way. -/
theorem search_exact {adds : List Posting} {index : MemIndex} (hbuild : build adds = .ok index)
    {query : List Bytes} (hquery : query ≠ []) (hfree : CollisionFree adds query)
    (hfit : ∀ q, q <+: query → ∀ docId, ContainsAll adds q docId → rankSum adds q docId ≤ INT_MAX) :
    ∃ res, search index query = .ok res ∧
      (res = none ↔ ∀ docId, ¬ContainsAll adds query docId) ∧
      ∀ l ∈ res, l.payloads ≠ [] ∧ (l.payloads.map SearchResult.docId).Nodup ∧
        (∀ docId, docId ∈ l.payloads.map SearchResult.docId ↔ ContainsAll adds query docId) ∧
        (∀ sr ∈ l.payloads, sr.rank = rankSum adds query sr.docId) ∧
        l.payloads.Pairwise fun x y => y.rank ≤ x.rank := by
  obtain ⟨word, query, rfl⟩ := List.exists_cons_of_ne_nil hquery
  have hidx := build_indexes hbuild
  obtain ⟨res, hres, hspec⟩ := search_spec index word query (queryRank_le hidx hfree hfit)
  refine ⟨res, hres, ?_⟩
  cases res with
  | none =>
      refine ⟨iff_of_true rfl fun docId hall => ?_, by simp⟩
      have hsome := (queryRank_eq_some hidx hfree).mpr ⟨hall, rfl⟩
      rw [hspec docId] at hsome
      cases hsome
  | some l =>
      obtain ⟨hranked, hempty⟩ := hspec
      have hmem (sr : SearchResult) : sr ∈ l.payloads ↔ ContainsAll adds (word :: query) sr.docId ∧
          sr.rank = rankSum adds (word :: query) sr.docId := by
        rw [hranked.mem, queryRank_eq_some hidx hfree]
      have hne : l.payloads ≠ [] := fun hnil => by
        obtain ⟨wp, hlook, hzero⟩ := hempty hnil
        exact hidx.inhabited hlook hzero
      have hdocs (docId : DocID) : docId ∈ l.payloads.map SearchResult.docId ↔
          ContainsAll adds (word :: query) docId := by
        rw [List.mem_map]
        constructor
        · rintro ⟨sr, hsr, rfl⟩
          exact ((hmem sr).mp hsr).1
        · intro hall
          exact ⟨⟨docId, rankSum adds (word :: query) docId⟩, (hmem _).mpr ⟨hall, rfl⟩, rfl⟩
      refine ⟨iff_of_false (by simp) fun hnone => ?_, ?_⟩
      · obtain ⟨sr, hsr⟩ := List.exists_mem_of_ne_nil _ hne
        exact hnone sr.docId ((hmem sr).mp hsr).1
      · rintro l' hl'
        obtain rfl : l = l' := by simpa using hl'
        exact ⟨hne, hranked.nodup, hdocs, fun sr hsr => ((hmem sr).mp hsr).2, hranked.sorted⟩

section

variable {index : MemIndex} {word : Bytes} {wp : WordPostings} {docId : DocID} {p : Postings}

theorem searchRest_overflow (hlook : index.lookup (hashString word) = some wp)
    (hp : wp.postings.lookup docId = some p) (k : Nat) (retList : LinkedList SearchResult) (r : Nat)
    (hret : retList.payloads = [⟨docId, r⟩]) (hr : r ≤ INT_MAX) (hover : INT_MAX < r + k * p.numElements) :
    searchRest index (List.replicate k word) retList = .error .signedOverflow := by
  induction k generalizing retList r with
  | zero => omega
  | succ k ih =>
      obtain ⟨⟨addr, sr⟩, hn⟩ : ∃ n, retList.nodes = [n] := by
        have hlen := congrArg List.length hret
        rw [LinkedList.length_payloads] at hlen
        exact List.length_eq_one_iff.mp hlen
      obtain rfl : sr = ⟨docId, r⟩ := by simpa [LinkedList.payloads, hn] using hret
      have hone : retList.numElements = 1 := by simp [LinkedList.numElements, hn]
      have hrefine : refineResult wp.postings ⟨docId, r⟩ = some ⟨docId, r + p.numElements⟩ := by
        simp [refineResult, hp]
      simp only [List.replicate_succ, searchRest, HashTable.find_eq, Run.ok_bind, hlook, Option.map_some, hone]
      by_cases hfit : r + p.numElements ≤ INT_MAX
      · obtain ⟨l, hrun, hl⟩ := intersectResults_spec [⟨addr, ⟨docId, r⟩⟩] retList []
          hn (LLIterator.allocate retList) (fun m rest h => by
            obtain ⟨rfl, _⟩ := List.cons.inj h
            simp [LLIterator.allocate, hn])
          (fun m hm sr hsr => by
            obtain rfl := List.mem_singleton.mp hm
            rw [hrefine] at hsr
            obtain rfl := Option.some.inj hsr
            exact hfit)
        replace hrun : intersectResults wp.postings 1 (LLIterator.allocate retList) retList = .ok l := hrun
        replace hl : l.payloads = [⟨docId, r + p.numElements⟩] := by simpa [hrefine] using hl
        have hlen : l.numElements ≠ 0 := by rw [← LinkedList.length_payloads, hl]; simp
        rw [Nat.succ_mul] at hover
        simp only [hrun, Run.ok_bind, hlen, if_false]
        exact ih l (r + p.numElements) hl hfit (by omega)
      · have hget : LLIterator.get retList (LLIterator.allocate retList) = .ok ⟨docId, r⟩ := by
          have hhead : LLIterator.allocate retList = ⟨some addr⟩ := by simp [LLIterator.allocate, hn]
          rw [hhead]
          exact LLIterator.get_eq (show retList.nodes = [] ++ _ from hn)
        have hadd : intAdd r p.numElements = .error .signedOverflow := if_neg hfit
        simp [intersectResults, hget, hp, hadd]

end

def zeroPostings (n : Nat) : Postings :=
  ⟨(List.range n).map fun i => ⟨i, 0⟩, by simp [List.map_map, Function.comp_def, List.nodup_range]⟩

theorem numElements_zeroPostings (n : Nat) : (zeroPostings n).numElements = n := by
  simp [zeroPostings, LinkedList.numElements]

theorem build_single (a : Posting) : ∃ index, build [a] = .ok index := by
  obtain ⟨t, halloc, hzero, _⟩ := HashTable.allocate_grown (V := WordPostings) (n := initBuckets) (by decide)
    (by decide)
  have hidx := allocate_indexes halloc
  have hnone := HashTable.lookup_of_numElements_zero hzero
  obtain ⟨index, hadd⟩ := addPostingList_new hidx (a := a) (by simp) (by simp [postingsAt, hnone])
    ⟨fun _ => by rw [hzero]; exact bucketsFor_one, by simp [hnone]⟩
  exact ⟨index, by simp [build, allocate, halloc, addAll, hadd]⟩

theorem firstResults_single {index : MemIndex} {a : Posting} {wp : WordPostings} (hidx : Indexes index [a])
    (hlook : index.lookup (hashString a.word) = some wp) :
    firstResults wp.postings = [⟨a.docId, a.postings.numElements⟩] := by
  have hentry (docId : DocID) (p : Postings) :
      wp.postings.lookup docId = some p ↔ a.docId = docId ∧ a.postings = p := by
    have hiff := hidx.entries (hashString a.word) docId p
    rw [postingsAt, hlook, Option.bind_some] at hiff
    simpa using hiff
  have hall : ∀ sr ∈ firstResults wp.postings, sr = ⟨a.docId, a.postings.numElements⟩ := by
    intro sr hsr
    obtain ⟨p, hp, hrank⟩ := Option.map_eq_some_iff.mp (mem_firstResults.mp hsr)
    obtain ⟨hdoc, rfl⟩ := (hentry _ _).mp hp
    rw [hdoc, hrank]
  have hmem : (⟨a.docId, a.postings.numElements⟩ : SearchResult) ∈ firstResults wp.postings := by
    rw [mem_firstResults, (hentry a.docId a.postings).mpr ⟨rfl, rfl⟩]
    rfl
  have hnodup : (firstResults wp.postings).Nodup := by
    refine List.Nodup.of_map SearchResult.docId ?_
    rw [firstResults, List.map_map]
    exact wp.postings.nodup_keys
  have hpos := List.length_pos_of_mem hmem
  rw [List.eq_replicate_of_mem hall] at hnodup ⊢
  have hle := List.nodup_replicate.mp hnodup
  rw [show (firstResults wp.postings).length = 1 by omega]
  rfl

theorem search_repeated_overflow {index : MemIndex} {a : Posting} (hbuild : build [a] = .ok index) (k : Nat)
    (hfit : a.postings.numElements ≤ INT_MAX)
    (hover : INT_MAX < a.postings.numElements + k * a.postings.numElements) :
    search index (List.replicate (k + 1) a.word) = .error .signedOverflow := by
  have hidx := build_indexes hbuild
  obtain ⟨wp, hlook, _⟩ := hidx.word a (by simp)
  obtain ⟨it, hit, hpoints⟩ := HTIterator.allocate_spec wp.postings
  obtain ⟨first, hfirst, hp⟩ := collectResults_spec wp.postings.pairs (wp.postings.numElements + 1)
    (by rw [HashTable.length_pairs]; omega) it hpoints .allocate
  rw [LinkedList.payloads_allocate, List.nil_append] at hp
  replace hp := hp.trans (firstResults_single hidx hlook)
  have hentry : wp.postings.lookup a.docId = some a.postings := by
    have hat := (hidx.entries (hashString a.word) a.docId a.postings).mpr ⟨a, by simp, rfl, rfl, rfl⟩
    rwa [postingsAt, hlook] at hat
  have hrest := searchRest_overflow hlook hentry k first _ hp hfit hover
  simp [List.replicate_succ, search, hlook, hit, hfirst, hrest]

theorem search_exact_twice :
    ∃ index res, build [⟨ascii ['a'], 1, zeroPostings 2⟩] = .ok index ∧
      search index [ascii ['a'], ascii ['a']] = .ok res ∧ res ≠ none ∧
      ∀ l ∈ res, ∀ sr ∈ l.payloads,
        sr.rank = rankSum [⟨ascii ['a'], 1, zeroPostings 2⟩] [ascii ['a'], ascii ['a']] sr.docId := by
  obtain ⟨index, hbuild⟩ := build_single ⟨ascii ['a'], 1, zeroPostings 2⟩
  obtain ⟨res, hres, hnone, hspec⟩ := search_exact hbuild (List.cons_ne_nil (ascii ['a']) [ascii ['a']])
    (by simp [CollisionFree]) (by
      intro q hq docId _
      have hsum := rankSum_le [⟨ascii ['a'], 1, zeroPostings 2⟩] (k := 2)
        (by simp [numElements_zeroPostings]) q docId
      have hlen := hq.length_le
      simp only [List.length_cons, List.length_nil] at hlen
      unfold INT_MAX
      omega)
  refine ⟨index, res, hbuild, hres, fun h => ?_, fun l hl => (hspec l hl).2.2.2.1⟩
  exact hnone.mp h 1 (by simp [ContainsAll, Contains])

/-- One document with many positions of one word, and a query that repeats
the word: the rank leaves the range of an int. -/
theorem search_overflow :
    ∃ index, build [⟨ascii ['a'], 1, zeroPostings 65536⟩] = .ok index ∧
      search index (List.replicate 32768 (ascii ['a'])) = .error .signedOverflow := by
  obtain ⟨index, hbuild⟩ := build_single ⟨ascii ['a'], 1, zeroPostings 65536⟩
  have hn : (zeroPostings 65536).numElements = 65536 := numElements_zeroPostings 65536
  refine ⟨index, hbuild, search_repeated_overflow hbuild 32767 ?_ ?_⟩
  · simp only [hn, INT_MAX]
    omega
  · simp only [hn, INT_MAX]
    omega

end MemIndex

end SearchEngine
