import SearchEngine.DocIDTableReaders
import SearchEngine.RankSums
import SearchEngine.Library.Quota
import SearchEngine.Library.Simulation

/-! Which of the DocIDTableReader objects ProcessQuery deletes, and how many
descriptors they need. -/

namespace SearchEngine.ReaderOwnership

open FileProgram OpenFile Program
open SharedStream (outcome)

theorem mergeHeader_docId {header1 : DocIDElementHeader} {list2 : List DocIDElementHeader}
    {curr : Option DocIDElementHeader} (h : QueryProcessor.mergeHeader header1 list2 = .ok curr) :
    curr.map DocIDElementHeader.docId =
      if header1.docId ∈ list2.map DocIDElementHeader.docId then some header1.docId else none := by
  induction list2 with
  | nil =>
      obtain rfl := Except.ok.inj h
      rfl
  | cons header2 list2 ih =>
      rw [QueryProcessor.mergeHeader] at h
      split at h
      · next hsame =>
        obtain ⟨numPositions, _, h⟩ := Run.bind_eq_ok.mp h
        obtain rfl := Except.ok.inj h
        simp [hsame]
      · next hother =>
        simp [ih h, hother]

/-- MergeResult keeps the documents that the other list has as well. -/
theorem mergeResult_docIds {list1 list2 result : List DocIDElementHeader}
    (h : QueryProcessor.mergeResult list1 list2 = .ok result) :
    result.map DocIDElementHeader.docId =
      (list1.map DocIDElementHeader.docId).filter (· ∈ list2.map DocIDElementHeader.docId) := by
  induction list1 generalizing result with
  | nil =>
      obtain rfl := Except.ok.inj h
      rfl
  | cons header1 list1 ih =>
      rw [QueryProcessor.mergeResult] at h
      obtain ⟨curr, hcurr, h⟩ := Run.bind_eq_ok.mp h
      obtain ⟨rest, hrest, h⟩ := Run.bind_eq_ok.mp h
      obtain rfl := Except.ok.inj h
      have hone := mergeHeader_docId hcurr
      rw [List.map_append, ih hrest, List.map_cons]
      by_cases hmem : header1.docId ∈ list2.map DocIDElementHeader.docId
      · rw [if_pos hmem, Option.map_eq_some_iff] at hone
        obtain ⟨c, rfl, hc⟩ := hone
        rw [List.filter_cons_of_pos (by simpa using hmem), ← hc]
        rfl
      · rw [if_neg hmem, Option.map_eq_none_iff] at hone
        rw [List.filter_cons_of_neg (by simpa using hmem), hone]
        rfl

section

variable {itr : HashTableReader} {f f' : OpenFile}

/-- What a lookup and the list of the documents found say of the index. -/
theorem docIDs_eq {word : Bytes} {f₁ f₂ : OpenFile} {didtr : HashTableReader} {idList : List DocIDElementHeader}
    (hlook : (IndexTableReader.lookupWord itr word).run handle f = .ok (some didtr, f₁))
    (hlist : (DocIDTableReader.getDocIDList didtr).run handle f₁ = .ok (idList, f₂)) :
    f₂.image = f.image ∧ docIDs f.image itr word = .ok (some (idList.map DocIDElementHeader.docId)) := by
  obtain ⟨himage₁, hout₁⟩ := outcome_of_run (IndexTableReader.lookup_lookupWord f.image itr word) hlook
  obtain ⟨himage₂, hout₂⟩ := outcome_of_run (lookup_getDocIDList f₁.image didtr) hlist
  rw [himage₁] at hout₂ himage₂
  refine ⟨himage₂, ?_⟩
  rw [docIDs, hout₁, Run.ok_bind]
  simp only [hout₂, Run.ok_bind]
  rfl

theorem of_run_ofRun {α : Type} {x : Run α} {a : α} (h : (ofRun x).run handle f = .ok (a, f')) :
    x = .ok a ∧ f' = f := by
  cases x with
  | error e => cases h
  | ok b =>
      obtain ⟨rfl, rfl⟩ := Prod.mk.inj (Except.ok.inj h)
      exact ⟨rfl, rfl⟩

theorem not_indexed {word : Bytes} (hlook : (IndexTableReader.lookupWord itr word).run handle f = .ok (none, f')) :
    f'.image = f.image ∧ ¬Indexed f.image itr word := by
  obtain ⟨himage, hout⟩ := outcome_of_run (IndexTableReader.lookup_lookupWord f.image itr word) hlook
  refine ⟨himage, ?_⟩
  rintro ⟨ids, hids⟩
  rw [docIDs, hout, Run.ok_bind] at hids
  cases Except.ok.inj hids

/-- The loop over the further words keeps its last reader when it breaks with
nothing left. -/
theorem intersectWords_live {query : List Bytes} {idList : List DocIDElementHeader} {c : QueryProcessor.Candidates}
    (h : (QueryProcessor.intersectWords itr query idList).run handle f = .ok (c, f')) :
    f'.image = f.image ∧
      c.live = if LeavesNone f.image itr query (idList.map DocIDElementHeader.docId) then 1 else 0 := by
  induction query generalizing idList f with
  | nil =>
      obtain ⟨rfl, rfl⟩ := Prod.mk.inj (Except.ok.inj h)
      exact ⟨rfl, by simp [not_leavesNone_nil]⟩
  | cons word query ih =>
      rw [QueryProcessor.intersectWords] at h
      obtain ⟨res, f₁, hlook, h⟩ := (run_bind_eq_ok handle).mp h
      cases res with
      | none =>
          obtain ⟨himage, hnot⟩ := not_indexed hlook
          obtain ⟨rfl, rfl⟩ := Prod.mk.inj (Except.ok.inj h)
          exact ⟨himage, by simp [not_leavesNone_cons hnot]⟩
      | some didtr =>
          obtain ⟨idListTmp, f₂, hlist, h⟩ := (run_bind_eq_ok handle).mp h
          obtain ⟨merged, f₃, hmerge, hend⟩ := (run_bind_eq_ok handle).mp h
          obtain ⟨himage, hids⟩ := docIDs_eq hlook hlist
          obtain ⟨hmerged, rfl⟩ := of_run_ofRun hmerge
          simp only [leavesNone_cons hids, ← mergeResult_docIds hmerged, List.map_eq_nil_iff]
          split at hend
          · next hempty =>
            obtain ⟨rfl, rfl⟩ := Prod.mk.inj (Except.ok.inj hend)
            exact ⟨himage, by simp [List.length_eq_zero_iff.mp hempty]⟩
          · next hne =>
            obtain ⟨himage', hlive⟩ := ih hend
            rw [himage] at himage' hlive
            have hsome : merged ≠ [] := fun hnil => hne (List.length_eq_zero_iff.mpr hnil)
            exact ⟨himage', by simp [hlive, hsome]⟩

theorem documentResults_image {dtr : HashTableReader} {idList : List DocIDElementHeader} {results : List QueryResult}
    (h : (QueryProcessor.documentResults dtr idList).run handle f = .ok (results, f')) : f'.image = f.image := by
  induction idList generalizing results f with
  | nil =>
      obtain ⟨_, rfl⟩ := Prod.mk.inj (Except.ok.inj h)
      rfl
  | cons header idList ih =>
      rw [QueryProcessor.documentResults] at h
      obtain ⟨res, f₁, hlook, h⟩ := (run_bind_eq_ok handle).mp h
      have himage := (outcome_of_run (DocTableReader.lookup_lookupDocID f.image dtr header.docId) hlook).1
      cases res with
      | none => cases h
      | some documentName =>
          obtain ⟨rest, f₂, hrest, hend⟩ := (run_bind_eq_ok handle).mp h
          obtain ⟨_, rfl⟩ := Prod.mk.inj (Except.ok.inj hend)
          rw [ih hrest, himage]

theorem queryIndex_live {dtr : HashTableReader} {word : Bytes} {query : List Bytes} {results : List QueryResult}
    {live : Nat} (h : (QueryProcessor.queryIndex dtr itr word query).run handle f = .ok ((results, live), f')) :
    f'.image = f.image ∧ live = Visit.leaves ⟨f.image, itr, word :: query⟩ := by
  rw [QueryProcessor.queryIndex] at h
  obtain ⟨res, f₁, hlook, h⟩ := (run_bind_eq_ok handle).mp h
  cases res with
  | none =>
      obtain ⟨himage, hnot⟩ := not_indexed hlook
      obtain ⟨hres, rfl⟩ := Prod.mk.inj (Except.ok.inj h)
      obtain ⟨_, rfl⟩ := Prod.mk.inj hres
      exact ⟨himage, by simp [Visit.leaves, not_runsDry_cons hnot]⟩
  | some didtr =>
      obtain ⟨idList, f₂, hlist, h⟩ := (run_bind_eq_ok handle).mp h
      obtain ⟨candidates, f₃, hloop, hend⟩ := (run_bind_eq_ok handle).mp h
      obtain ⟨himage, hids⟩ := docIDs_eq hlook hlist
      obtain ⟨himage', hlive⟩ := intersectWords_live hloop
      have hleaves : Visit.leaves ⟨f.image, itr, word :: query⟩ = candidates.live := by
        simp only [Visit.leaves, runsDry_cons hids, hlive, himage]
      rw [hleaves, ← himage, ← himage']
      split at hend
      · obtain ⟨rs, f₄, hdocs, hpure⟩ := (run_bind_eq_ok handle).mp hend
        obtain ⟨hres, rfl⟩ := Prod.mk.inj (Except.ok.inj hpure)
        obtain ⟨_, rfl⟩ := Prod.mk.inj hres
        exact ⟨documentResults_image hdocs, rfl⟩
      · obtain ⟨hres, rfl⟩ := Prod.mk.inj (Except.ok.inj hend)
        obtain ⟨_, rfl⟩ := Prod.mk.inj hres
        exact ⟨rfl, rfl⟩

/-- Queries read the indices and leave them as they are. -/
def SameIndices (readers readers' : List IndexReaders) : Prop :=
  List.Forall₂ (fun r r' => r'.itr = r.itr ∧ r'.file.image = r.file.image) readers readers'

theorem SameIndices.visit_eq {readers readers' : List IndexReaders} (h : SameIndices readers readers')
    (query : List Bytes) : readers'.map (visit query) = readers.map (visit query) := by
  induction h with
  | nil => rfl
  | cons hr _ ih => rw [List.map_cons, List.map_cons, ih, visit, visit, hr.1, hr.2]

theorem queryIndices_live {word : Bytes} {query : List Bytes} {readers readers' : List IndexReaders}
    {results : List QueryResult} {live : Nat}
    (h : QueryProcessor.queryIndices word query readers = .ok (results, live, readers')) :
    SameIndices readers readers' ∧ live = ((readers.map (visit (word :: query))).map Visit.leaves).sum := by
  induction readers generalizing results live readers' with
  | nil =>
      cases h
      exact ⟨.nil, rfl⟩
  | cons r readers ih =>
      rw [QueryProcessor.queryIndices] at h
      obtain ⟨⟨⟨rs, liveOne⟩, file⟩, hone, h⟩ := Run.bind_eq_ok.mp h
      obtain ⟨⟨more, liveMore, rest⟩, hmore, h⟩ := Run.bind_eq_ok.mp h
      cases h
      obtain ⟨himage, hlive⟩ := queryIndex_live hone
      obtain ⟨hsame, hliveMore⟩ := ih hmore
      refine ⟨.cons ⟨rfl, himage⟩ hsame, ?_⟩
      rw [hlive, hliveMore, List.map_cons, List.map_cons, List.sum_cons]
      rfl

end

/-- The run with the objects beside the run that only counts them: it has the
same result, and the count is of the objects that are left, unless there is no
room for them. -/
inductive Accounted {σ α γ : Type} (view : γ → α × Nat) (heap : DocIDTableReaders) (room : Prop) :
    Except Fault (γ × σ) → Except Fault ((α × DocIDTableReaders) × σ) → Prop
  | ok (c : γ) (s : σ) {heap' : DocIDTableReaders} (hroom : room) (h : heap.Grown heap' (view c).2) :
      Accounted view heap room (.ok (c, s)) (.ok (((view c).1, heap'), s))
  | exhausted (c : γ) (s : σ) (e : Fault) (h : ¬room) : Accounted view heap room (.ok (c, s)) (.error e)
  | error (e e' : Fault) : Accounted view heap room (.error e) (.error e')

section

variable {α β γ σ : Type} {view : γ → α × Nat} {heap heap₁ : DocIDTableReaders} {room room₁ : Prop} {descriptors : Nat}
  {f : OpenFile}

theorem Accounted.after {x : Except Fault (γ × σ)} {y : Except Fault ((α × DocIDTableReaders) × σ)}
    (hg : heap.Grown heap₁ 0) (hroom : room₁ ↔ room) (h : Accounted view heap₁ room₁ x y) :
    Accounted view heap room x y := by
  cases h with
  | error e e' => exact .error e e'
  | exhausted c s e h => exact .exhausted c s e (hroom.not.mp h)
  | ok c s h hg' => exact .ok c s (hroom.mp h) (by simpa using hg.trans hg')

/-- The two runs begin alike. -/
theorem Accounted.same {x : FileProgram β} {p : β → FileProgram γ} {q : β → FileProgram (α × DocIDTableReaders)}
    (h : ∀ b f', x.run handle f = .ok (b, f') →
      Accounted view heap room ((p b).run handle f') ((q b).run handle f')) :
    Accounted view heap room ((x >>= p).run handle f) ((x >>= q).run handle f) := by
  rw [run_bind, run_bind]
  cases hx : x.run handle f with
  | error e => exact .error e e
  | ok r => exact h r.1 r.2 hx

/-- There is no descriptor for a reader that the run needs. -/
theorem Accounted.none_left {x : Except Fault (γ × σ)} {e : Fault} (h : ∀ r, x = .ok r → ¬room) :
    Accounted view heap room x (.error e : Except Fault ((α × DocIDTableReaders) × σ)) := by
  cases x with
  | error e' => exact .error e' e
  | ok r => exact .exhausted r.1 r.2 e (h r rfl)

theorem getDocIDList_live {didtr : Nat} {r : HashTableReader} (hload : heap.load didtr = some r)
    (hfrees : heap.frees didtr = 0) : getDocIDList heap didtr = DocIDTableReader.getDocIDList r := by
  unfold getDocIDList
  rw [hload, hfrees]
  rfl

def counted (c : QueryProcessor.Candidates) : Candidates × Nat := (⟨c.isValid, c.idList⟩, c.live)

theorem run_lookupWord {itr : HashTableReader} {word : Bytes} {didtr : HashTableReader} {f' : OpenFile}
    (h : (IndexTableReader.lookupWord itr word).run handle f = .ok (some didtr, f')) :
    (lookupWord descriptors itr word heap).run handle f =
      if heap.liveCount < descriptors then .ok ((some heap.top, heap.malloc didtr), f') else .error .verify333 := by
  rw [lookupWord, run_bind, h, ok_bind]
  simp only [run_bind]
  split
  · next hroom =>
    rw [decide_eq_true hroom]
    rfl
  · next hroom =>
    rw [decide_eq_false hroom]
    rfl

theorem run_lookupWord_none {itr : HashTableReader} {word : Bytes} {f' : OpenFile}
    (h : (IndexTableReader.lookupWord itr word).run handle f = .ok (none, f')) :
    (lookupWord descriptors itr word heap).run handle f = .ok ((none, heap), f') := by
  rw [lookupWord, run_bind, h]
  rfl

theorem run_lookupWord_error {itr : HashTableReader} {word : Bytes} {e : Fault}
    (h : (IndexTableReader.lookupWord itr word).run handle f = .error e) :
    (lookupWord descriptors itr word heap).run handle f = .error e := by
  rw [lookupWord, run_bind, h]
  rfl

/-- A lookup that a run goes on from with the list of the documents found one
that the index has. -/
theorem indexed_of_run {itr : HashTableReader} {word : Bytes} {didtr : HashTableReader} {f' : OpenFile}
    {k : List DocIDElementHeader → FileProgram γ} {r : γ × OpenFile}
    (hlook : (IndexTableReader.lookupWord itr word).run handle f = .ok (some didtr, f'))
    (h : (DocIDTableReader.getDocIDList didtr >>= k).run handle f' = .ok r) : Indexed f.image itr word := by
  obtain ⟨idList, f₁, hlist, _⟩ := (run_bind_eq_ok handle).mp h
  exact ⟨_, (docIDs_eq hlook hlist).2⟩

/-- The readers of the further words are open one at a time. -/
theorem intersectWords_accounted (descriptors : Nat) (itr : HashTableReader) (query : List Bytes)
    (idList : List DocIDElementHeader) (hfresh : heap.Fresh) (f : OpenFile) :
    Accounted counted heap (∀ word ∈ query.head?, Indexed f.image itr word → heap.liveCount < descriptors)
      ((QueryProcessor.intersectWords itr query idList).run handle f)
      ((intersectWords descriptors itr query idList heap).run handle f) := by
  induction query generalizing heap idList f with
  | nil => exact .ok (QueryProcessor.Candidates.mk true idList 0) f (by simp) (.refl hfresh)
  | cons word query ih =>
      rw [QueryProcessor.intersectWords, intersectWords, run_bind, run_bind]
      cases hlook : (IndexTableReader.lookupWord itr word).run handle f with
      | error e =>
          rw [run_lookupWord_error hlook]
          exact .error e e
      | ok r =>
          obtain ⟨res, f'⟩ := r
          cases res with
          | none =>
              obtain ⟨_, hnot⟩ := not_indexed hlook
              rw [run_lookupWord_none hlook]
              exact .ok (QueryProcessor.Candidates.mk false idList 0) f' (by simp [hnot]) (.refl hfresh)
          | some didtr =>
              rw [run_lookupWord hlook]
              split
              · next hroom =>
                have hmade := Heap.Grown.malloc hfresh didtr
                simp only [ok_bind, getDocIDList_live (heap.load_malloc_top didtr) (hfresh _ (Nat.le_refl _))]
                apply Accounted.same
                intro idListTmp f₁ _
                apply Accounted.same
                intro merged f₂ _
                split
                · exact .ok (QueryProcessor.Candidates.mk true merged 1) f₂ (fun _ _ _ => hroom) hmade
                · have hdeleted := (Heap.Grown.refl hmade.fresh).free hfresh
                  refine .after hdeleted ?_ (ih merged hdeleted.fresh f₂)
                  rw [hdeleted.liveCount_eq]
                  exact iff_of_true (fun _ _ _ => hroom) fun _ _ _ => hroom
              · next hroom =>
                apply Accounted.none_left
                intro r hrun hall
                exact hroom (hall word rfl (indexed_of_run hlook hrun))

theorem queryIndex_accounted (descriptors : Nat) (dtr itr : HashTableReader) (word : Bytes) (query : List Bytes)
    (hfresh : heap.Fresh) (f : OpenFile) :
    Accounted id heap (Visit.opens ⟨f.image, itr, word :: query⟩ ≠ 0 →
        heap.liveCount + Visit.opens ⟨f.image, itr, word :: query⟩ ≤ descriptors)
      ((QueryProcessor.queryIndex dtr itr word query).run handle f)
      ((queryIndex descriptors dtr itr word query heap).run handle f) := by
  rw [QueryProcessor.queryIndex, queryIndex, run_bind, run_bind]
  cases hlook : (IndexTableReader.lookupWord itr word).run handle f with
  | error e =>
      rw [run_lookupWord_error hlook]
      exact .error e e
  | ok r =>
      obtain ⟨res, f'⟩ := r
      cases res with
      | none =>
          obtain ⟨_, hnot⟩ := not_indexed hlook
          rw [run_lookupWord_none hlook, Visit.opens_cons_of_not hnot]
          exact .ok ([], 0) f' (fun hne => absurd rfl hne) (.refl hfresh)
      | some didtr =>
          rw [run_lookupWord hlook]
          split
          · next hroom =>
            have hmade := Heap.Grown.malloc hfresh didtr
            simp only [ok_bind, getDocIDList_live (heap.load_malloc_top didtr) (hfresh _ (Nat.le_refl _))]
            apply Accounted.same
            intro idList f₁ hlist
            obtain ⟨himage, hids⟩ := docIDs_eq hlook hlist
            have hrest := intersectWords_accounted descriptors itr query idList hmade.fresh f₁
            have hopens : (∀ w ∈ query.head?, Indexed f₁.image itr w → (heap.malloc didtr).liveCount < descriptors) ↔
                (Visit.opens ⟨f.image, itr, word :: query⟩ ≠ 0 →
                  heap.liveCount + Visit.opens ⟨f.image, itr, word :: query⟩ ≤ descriptors) := by
              rw [Visit.opens_cons ⟨_, hids⟩, himage, hmade.liveCount_eq]
              cases query with
              | nil => exact iff_of_true (by simp) fun _ => hroom
              | cons w query =>
                  by_cases hw : Indexed f.image itr w
                  · simp [hw, Nat.lt_iff_add_one_le, Nat.add_assoc]
                  · simp [hw, Nat.succ_le_of_lt hroom]
            rw [hopens] at hrest
            rw [run_bind, run_bind]
            generalize (QueryProcessor.intersectWords itr query idList).run handle f₁ = x at hrest ⊢
            generalize (intersectWords descriptors itr query idList _).run handle f₁ = y at hrest ⊢
            cases hrest with
            | error e e' => exact .error e e'
            | exhausted c s e hno => exact .none_left fun _ _ => hno
            | ok c f₂ hyes hg =>
                have hend : ∀ (results : List QueryResult) f₃, Accounted id heap
                    (Visit.opens ⟨f.image, itr, word :: query⟩ ≠ 0 →
                      heap.liveCount + Visit.opens ⟨f.image, itr, word :: query⟩ ≤ descriptors)
                    ((pure (results, c.live) : FileProgram _).run handle f₃)
                    ((pure (results, Heap.free _ heap.top) : FileProgram _).run handle f₃) :=
                  fun results f₃ => .ok (results, c.live) f₃ hyes (hg.free hfresh)
                change Accounted id heap _ (Program.run handle (if c.isValid then _ else _) f₂)
                  (Program.run handle (if c.isValid then _ else _) f₂)
                split
                · exact Accounted.same fun results f₃ _ => hend results f₃
                · exact hend [] f₂
          · next hroom =>
            apply Accounted.none_left
            intro r hrun hall
            rw [Visit.opens_cons (indexed_of_run hlook hrun)] at hall
            have hle := hall (by omega)
            omega

theorem queryIndices_accounted (descriptors : Nat) (word : Bytes) (query : List Bytes) (readers : List IndexReaders)
    (hfresh : heap.Fresh) :
    Accounted id heap
      (Quota.Within Visit.opens Visit.leaves descriptors heap.liveCount (readers.map (visit (word :: query))))
      ((QueryProcessor.queryIndices word query readers).map fun r => ((r.1, r.2.1), r.2.2))
      ((queryIndices descriptors word query readers heap).map fun r => ((r.1, r.2.2), r.2.1)) := by
  induction readers generalizing heap with
  | nil => exact .ok ([], 0) [] trivial (.refl hfresh)
  | cons r readers ih =>
      have hone := queryIndex_accounted descriptors r.dtr r.itr word query hfresh r.file
      have hlive : ∀ results live f',
          (QueryProcessor.queryIndex r.dtr r.itr word query).run handle r.file = .ok ((results, live), f') →
            live = Visit.leaves ⟨r.file.image, r.itr, word :: query⟩ := fun _ _ _ h => (queryIndex_live h).2
      rw [queryIndices, QueryProcessor.queryIndices, List.map_cons, Quota.Within]
      generalize (QueryProcessor.queryIndex r.dtr r.itr word query).run handle r.file = x at hone hlive ⊢
      generalize (queryIndex descriptors r.dtr r.itr word query heap).run handle r.file = y at hone ⊢
      cases hone with
      | error e e' => exact .error e e'
      | exhausted c file e hno => exact .none_left fun _ _ hall => hno hall.1
      | @ok c file heap' hyes hg =>
          have hleaves := hlive c.1 c.2 file rfl
          have hcount : heap'.liveCount = heap.liveCount + Visit.leaves (visit (word :: query) r) := by
            rw [hg.liveCount_eq]
            exact congrArg (heap.liveCount + ·) hleaves
          have hmore := ih hg.fresh
          rw [hcount] at hmore
          simp only [Run.ok_bind]
          generalize QueryProcessor.queryIndices word query readers = x at hmore ⊢
          generalize queryIndices descriptors word query readers _ = y at hmore ⊢
          rcases x with e | ⟨more, liveMore, readers'⟩ <;> rcases y with e' | ⟨more', readers'', heap''⟩ <;> cases hmore
          · exact .error e e'
          · next hno => exact .exhausted _ _ _ fun hall => hno hall.2
          · next hall hg' => exact .ok (c.1 ++ more, c.2 + liveMore) _ ⟨hyes, hall⟩ (hg.trans hg')

end

section

variable {sorter : Sorter QueryResult.less} {descriptors : Nat} {qp qp' : Processor}

/-- A query that the processor which only counts its readers answers is
answered alike, if there is room for them, and otherwise it ends the process. -/
theorem processQuery_of_counted (descriptors : Nat) (hfresh : qp.heap.Fresh) {live : Nat}
    {query : List Bytes} {results : List QueryResult} {counted : QueryProcessor}
    (h : QueryProcessor.processQuery sorter ⟨qp.readers, live⟩ query = .ok (results, counted)) :
    (Quota.Within Visit.opens Visit.leaves descriptors qp.heap.liveCount (qp.readers.map (visit query)) ∧
      ∃ qp', processQuery sorter descriptors qp query = .ok (qp', results) ∧ qp'.readers = counted.readers ∧
        SameIndices qp.readers qp'.readers ∧
        qp.heap.Grown qp'.heap ((qp.readers.map (visit query)).map Visit.leaves).sum) ∨
    (¬Quota.Within Visit.opens Visit.leaves descriptors qp.heap.liveCount (qp.readers.map (visit query)) ∧
      ∃ e, processQuery sorter descriptors qp query = .error e) := by
  cases query with
  | nil => cases h
  | cons word query =>
      have hall := queryIndices_accounted descriptors word query qp.readers hfresh
      obtain ⟨⟨finalResult, liveMore, readers'⟩, hplain, hend⟩ := Run.bind_eq_ok.mp h
      obtain ⟨rfl, rfl⟩ := Prod.mk.inj (Except.ok.inj hend)
      obtain ⟨hsame, hlive⟩ := queryIndices_live hplain
      rw [hplain] at hall
      rw [processQuery]
      cases hrun : queryIndices descriptors word query qp.readers qp.heap with
      | error e =>
          rw [hrun] at hall
          cases hall with
          | exhausted _ _ _ hno => exact .inr ⟨hno, e, rfl⟩
      | ok out =>
          obtain ⟨more, readers'', heap'⟩ := out
          rw [hrun] at hall
          cases hall with
          | ok _ _ hyes hg => exact .inl ⟨hyes, ⟨readers', heap'⟩, rfl, rfl, hsame, hlive ▸ hg⟩

theorem processQuery_fails (descriptors : Nat) (hfresh : qp.heap.Fresh) {live : Nat}
    {query : List Bytes} {e : Fault} (h : QueryProcessor.processQuery sorter ⟨qp.readers, live⟩ query = .error e) :
    ∃ e', processQuery sorter descriptors qp query = .error e' := by
  cases query with
  | nil => exact ⟨_, rfl⟩
  | cons word query =>
      have hall := queryIndices_accounted descriptors word query qp.readers hfresh
      rw [QueryProcessor.processQuery] at h
      rw [processQuery]
      cases hplain : QueryProcessor.queryIndices word query qp.readers with
      | ok r =>
          rw [hplain] at h
          cases h
      | error e =>
          rw [hplain] at hall
          cases hrun : queryIndices descriptors word query qp.readers qp.heap with
          | error e' => exact ⟨e', rfl⟩
          | ok out =>
              rw [hrun] at hall
              cases hall

theorem processQuery_grown (hfresh : qp.heap.Fresh) {query : List Bytes} {results : List QueryResult}
    (h : processQuery sorter descriptors qp query = .ok (qp', results)) :
    SameIndices qp.readers qp'.readers ∧
      qp.heap.Grown qp'.heap ((qp.readers.map (visit query)).map Visit.leaves).sum := by
  cases hplain : QueryProcessor.processQuery sorter ⟨qp.readers, 0⟩ query with
  | error e =>
      obtain ⟨e', hrun⟩ := processQuery_fails descriptors hfresh hplain
      rw [h] at hrun
      cases hrun
  | ok r =>
      rcases processQuery_of_counted descriptors hfresh hplain with
        ⟨_, qp₁, hrun, _, hsame, hg⟩ | ⟨_, e, hrun⟩
      · rw [h] at hrun
        obtain ⟨rfl, _⟩ := Prod.mk.inj (Except.ok.inj hrun)
        exact ⟨hsame, hg⟩
      · rw [h] at hrun
        cases hrun

/-- Over a sequence of queries as many readers are left as queries run dry in
one of the indices. -/
theorem run_grown {queries : List (List Bytes)} {results : List (List QueryResult)} (hfresh : qp.heap.Fresh)
    (h : Simulation.run (processQuery sorter descriptors) qp queries = .ok (qp', results)) :
    qp.heap.Grown qp'.heap ((visits qp.readers queries).map Visit.leaves).sum := by
  induction queries generalizing qp results with
  | nil =>
      obtain ⟨rfl, _⟩ := Prod.mk.inj (Except.ok.inj h)
      exact .refl hfresh
  | cons query queries ih =>
      rw [Simulation.run] at h
      obtain ⟨⟨qp₁, rs⟩, hone, htail⟩ := Run.bind_eq_ok.mp h
      obtain ⟨⟨qp₂, more⟩, hrest, hend⟩ := Run.bind_eq_ok.mp htail
      obtain ⟨rfl, _⟩ := Prod.mk.inj (Except.ok.inj hend)
      obtain ⟨hsame, hg⟩ := processQuery_grown hfresh hone
      have hg' := ih hg.fresh hrest
      have hvisits : visits qp₁.readers queries = visits qp.readers queries := by
        simp only [visits, hsame.visit_eq]
      rw [hvisits] at hg'
      rw [visits, List.flatMap_cons, List.map_append, List.sum_append]
      exact hg.trans hg'

theorem leaves_eq_zero_iff (readers : List IndexReaders) (queries : List (List Bytes)) :
    ((visits readers queries).map Visit.leaves).sum = 0 ↔
      ∀ query ∈ queries, ∀ r ∈ readers, ¬RunsDry r.file.image r.itr query := by
  simp only [List.sum_eq_zero_iff, visits, List.forall_mem_map, List.forall_mem_flatMap, Visit.leaves_eq_zero, visit]

/-- Each reader that the queries are handed is deleted exactly once, and as
many are left as there were before, exactly when no query runs dry. -/
theorem readers_deleted_iff (sorter : Sorter QueryResult.less) (descriptors : Nat) {qp qp' : Processor}
    (hfresh : qp.heap.Fresh) {queries : List (List Bytes)} {results : List (List QueryResult)}
    (h : Simulation.run (processQuery sorter descriptors) qp queries = .ok (qp', results)) :
    ((∀ didtr, qp.heap.top ≤ didtr → didtr < qp'.heap.top → qp'.heap.frees didtr = 1) ∧
        qp'.heap.liveCount = qp.heap.liveCount) ↔
      ∀ query ∈ queries, ∀ r ∈ qp.readers, ¬RunsDry r.file.image r.itr query := by
  have hg := run_grown hfresh h
  rw [← leaves_eq_zero_iff, hg.freed_once_iff, hg.liveCount_eq]
  omega

end

/-- A query in an index, of which is known what words it has together in a
document. -/
structure Search where
  together : List Bytes → Bool
  query : List Bytes

namespace Search

/-- The readers that are open at once: of the first word, and of the second as
well, as far as the index has them. -/
def opens (s : Search) : Nat := ((s.query.take 2).takeWhile fun word => s.together [word]).length

/-- The query begins with words, more than one, that are all in the index, but
not together in one document. -/
def Dry (s : Search) : Prop :=
  ∃ words ∈ s.query.inits, 2 ≤ words.length ∧ (∀ word ∈ words, s.together [word]) ∧ ¬s.together words

instance (s : Search) : Decidable s.Dry := inferInstanceAs (Decidable (∃ _ ∈ _, _))

/-- The readers that are not deleted. -/
def leaves (s : Search) : Nat := if s.Dry then 1 else 0

theorem opens_le (s : Search) : s.opens ≤ 2 := by
  have hle : s.opens ≤ (s.query.take 2).length := (List.takeWhile_prefix _).length_le
  exact Nat.le_trans hle (List.length_take_le 2 s.query)

theorem leaves_le (s : Search) : s.leaves ≤ 2 := by
  rw [leaves]
  split <;> decide

end Search

/-- A query in the index file of these posting lists. -/
def search (query : List Bytes) (x : QueryProcessor.IndexedFile) : Search where
  together words := decide (∃ a ∈ x.adds, ∀ w ∈ words, ∃ b ∈ x.adds, b.word = w ∧ b.docId = a.docId)
  query := query

def searches (indices : List QueryProcessor.IndexedFile) (queries : List (List Bytes)) : List Search :=
  queries.flatMap fun query => indices.map (search query)

section

variable (x : QueryProcessor.IndexedFile) (word : Bytes) {words query : List Bytes}

theorem outcome_of_returns {α : Type} {image : FileImage} {p : FileProgram α} {a : α} (h : Returns image p a) :
    outcome image 0 p = .ok a := by
  obtain ⟨pos, hrun⟩ := h 0 true
  rw [outcome, hrun]
  rfl

theorem docIDs_stored : docIDs x.file.image x.itr word =
    .ok ((x.mi.stored word).map fun wp => wp.postings.pairs.map HTKeyValue.key) := by
  obtain ⟨res, hres, hspec⟩ := x.findsWordPostings word
  rw [docIDs, outcome_of_returns hres, Run.ok_bind]
  cases res with
  | none =>
      rw [hspec]
      rfl
  | some didtr =>
      obtain ⟨wp, hl, hreads⟩ := hspec
      simp only [outcome_of_returns (QueryProcessor.getDocIDList_reads hreads), Run.ok_bind, hl, Option.map_some]
      simp [MemIndex.firstResults, QueryProcessor.header, Function.comp_def]

theorem indexed_iff : Indexed x.file.image x.itr word ↔ ∃ a ∈ x.adds, a.word = word := by
  have hidx := x.indexes
  have hstored {wp : WordPostings} :
      x.mi.stored word = some wp ↔ x.mi.lookup (hashString word) = some wp ∧ wp.word = word :=
    QueryProcessor.stored_eq_some hidx x.wordBytes
  rw [Indexed, docIDs_stored]
  constructor
  · rintro ⟨ids, hids⟩
    obtain ⟨wp, hl, _⟩ := Option.map_eq_some_iff.mp (Except.ok.inj hids)
    obtain ⟨hlook, rfl⟩ := hstored.mp hl
    obtain ⟨a, ha, hword, _⟩ := hidx.words _ _ hlook
    exact ⟨a, ha, hword⟩
  · rintro ⟨a, ha, rfl⟩
    obtain ⟨wp, hl, hword⟩ := hidx.word a ha
    rw [hstored.mpr ⟨hl, hword⟩]
    exact ⟨_, rfl⟩

theorem has_iff_contains (docId : UInt64) :
    Has x.file.image x.itr docId word ↔ Contains x.adds word docId := by
  have hcount : Contains x.adds word docId ↔
      (QueryProcessor.countOf x.mi.stored word docId).isSome := by
    simp [Option.isSome_iff_exists, QueryProcessor.countOf_stored x.indexes x.wordBytes]
  rw [hcount, Has, docIDs_stored, QueryProcessor.countOf]
  cases x.mi.stored word with
  | none => simp
  | some wp =>
      simp only [Option.map_some, Except.ok.injEq, Option.some.injEq, exists_eq_left', List.mem_map,
        HashTable.mem_pairs, Option.bind_some, Option.isSome_map, Option.isSome_iff_exists]
      constructor
      · rintro ⟨kv, hkv, rfl⟩
        exact ⟨kv.value, hkv⟩
      · rintro ⟨p, hp⟩
        exact ⟨⟨docId, p⟩, hp, rfl⟩

theorem together_iff (hwords : words ≠ []) :
    (search query x).together words = true ↔ ∃ docId, ContainsAll x.adds words docId := by
  rw [search, decide_eq_true_iff]
  constructor
  · rintro ⟨a, _, hall⟩
    exact ⟨a.docId, hall⟩
  · rintro ⟨docId, hall⟩
    obtain ⟨word, hword⟩ := List.exists_mem_of_ne_nil words hwords
    obtain ⟨a, ha, _, rfl⟩ := hall word hword
    exact ⟨a, ha, hall⟩

theorem together_singleton : (search query x).together [word] = true ↔ Indexed x.file.image x.itr word := by
  rw [together_iff x (List.cons_ne_nil word []), indexed_iff]
  simp [ContainsAll, Contains]

/-- In an index that WriteIndex has written, what the files say is what was
added. -/
theorem runsDry_iff (query : List Bytes) : RunsDry x.file.image x.itr query ↔ (search query x).Dry := by
  refine exists_congr fun words => ?_
  rw [List.mem_inits]
  refine and_congr_right fun _ => and_congr_right fun hlen => and_congr ?_ ?_
  · simp only [together_singleton]
  · have hne : words ≠ [] := List.ne_nil_of_length_pos (Nat.lt_of_lt_of_le Nat.zero_lt_two hlen)
    rw [together_iff x hne]
    simp [ContainsAll, has_iff_contains]

theorem visit_opens (query : List Bytes) : Visit.opens ⟨x.file.image, x.itr, query⟩ = (search query x).opens := by
  have hsame : (fun word => decide (Indexed x.file.image x.itr word)) =
      fun word => (search query x).together [word] := by
    funext word
    rw [Bool.eq_iff_iff, decide_eq_true_iff, together_singleton]
  rw [Visit.opens, Search.opens, hsame]
  rfl

theorem visit_leaves (query : List Bytes) : Visit.leaves ⟨x.file.image, x.itr, query⟩ = (search query x).leaves := by
  simp only [Visit.leaves, Search.leaves, runsDry_iff]

end

section

variable {indices : List QueryProcessor.IndexedFile} {readers : List IndexReaders}

theorem serves_forall_iff (h : QueryProcessor.Serves readers indices) (P : FileImage → HashTableReader → Prop) :
    (∀ r ∈ readers, P r.file.image r.itr) ↔ ∀ x ∈ indices, P x.file.image x.itr := by
  induction h with
  | nil => simp
  | cons hr _ ih => rw [List.forall_mem_cons, List.forall_mem_cons, ih, hr.2.1, hr.2.2]

theorem serves_visits (h : QueryProcessor.Serves readers indices) (query : List Bytes) :
    List.Forall₂ (fun v s => Visit.opens v = Search.opens s ∧ Visit.leaves v = Search.leaves s)
      (readers.map (visit query)) (indices.map (search query)) := by
  induction h with
  | nil => exact .nil
  | @cons r x _ _ hr _ ih =>
      have hvisit : visit query r = ⟨x.file.image, x.itr, query⟩ := by rw [visit, hr.2.1, hr.2.2]
      exact .cons (by rw [hvisit]; exact ⟨visit_opens x query, visit_leaves x query⟩) ih

theorem sum_leaves_eq (h : QueryProcessor.Serves readers indices) (query : List Bytes) :
    ((readers.map (visit query)).map Visit.leaves).sum = ((indices.map (search query)).map Search.leaves).sum := by
  have hall := serves_visits h query
  generalize readers.map (visit query) = visits at hall
  generalize indices.map (search query) = searches at hall
  induction hall with
  | nil => rfl
  | cons hv _ ih => rw [List.map_cons, List.map_cons, List.sum_cons, List.sum_cons, hv.2, ih]

/-- The processor serves the index files, and has so many readers of their
posting lists left. -/
structure Ready (indices : List QueryProcessor.IndexedFile) (live : Nat) (qp : Processor) : Prop where
  serves : QueryProcessor.Serves qp.readers indices
  fresh : qp.heap.Fresh
  live : qp.heap.liveCount = live

theorem ready_new (h : QueryProcessor.Serves readers indices) : Ready indices 0 ⟨readers, .empty⟩ where
  serves := h
  fresh := Heap.fresh_empty
  live := rfl

/-- A query is answered as by the processor that only counts its readers, or a
sum of ranks overflows, or the descriptors do not suffice. -/
theorem processQuery_ends (sorter : Sorter QueryResult.less) (descriptors : Nat) {live : Nat} {qp : Processor}
    (h : Ready indices live qp) {query : List Bytes} (hquery : query ≠ []) :
    (((∀ x ∈ indices, QueryProcessor.SumsFit x.mi.stored query) ∧
        Quota.Within Search.opens Search.leaves descriptors live (indices.map (search query))) ∧
      ∃ qp' results counted, processQuery sorter descriptors qp query = .ok (qp', results) ∧
        QueryProcessor.processQuery sorter ⟨qp.readers, 0⟩ query = .ok (results, counted) ∧
        Ready indices (live + ((indices.map (search query)).map Search.leaves).sum) qp') ∨
    (¬((∀ x ∈ indices, QueryProcessor.SumsFit x.mi.stored query) ∧
        Quota.Within Search.opens Search.leaves descriptors live (indices.map (search query))) ∧
      ∃ e, processQuery sorter descriptors qp query = .error e) := by
  obtain ⟨hserves, hfresh, rfl⟩ := h
  have hplain : QueryProcessor.Serves (QueryProcessor.mk qp.readers 0).readers indices := hserves
  rcases QueryProcessor.processQuery_ends sorter hplain hquery with
    ⟨hfit, results, counted, hrun, hserves'⟩ | ⟨⟨x, hx, hnot⟩, e, hrun⟩
  · rw [← Quota.within_congr (serves_visits hserves query), ← sum_leaves_eq hserves]
    rcases processQuery_of_counted descriptors hfresh hrun with ⟨hyes, qp', hall, hsame, _, hg⟩ | ⟨hno, e, hall⟩
    · rw [← hsame] at hserves'
      exact .inl ⟨⟨hfit, hyes⟩, qp', results, counted, hall, hrun, hserves', hg.fresh, hg.liveCount_eq⟩
    · exact .inr ⟨fun h => hno h.2, e, hall⟩
  · exact .inr ⟨fun h => hnot (h.1 x hx), processQuery_fails descriptors hfresh hrun⟩

end

def apartAdds : List Posting :=
  [⟨ascii ['a'], 1, LinkedList.allocate.append 0⟩, ⟨ascii ['b'], 2, LinkedList.allocate.append 0⟩]

def apartQuery : List Bytes := [ascii ['a'], ascii ['b']]

theorem apartQuery_runs (x : QueryProcessor.IndexedFile) (hcount : ∀ a ∈ x.adds, a.postings.numElements ≤ 2) :
    ∃ readers qp' results, QueryProcessor.new [x.file] true = .ok ⟨readers, 0⟩ ∧
      QueryProcessor.Serves readers [x] ∧
      Simulation.run (processQuery (mergeSorter _) 1000) ⟨readers, .empty⟩ [apartQuery] = .ok (qp', results) := by
  obtain ⟨readers, hopen, hserves⟩ := QueryProcessor.openIndices_serves true [x]
  have hfit : ∀ y ∈ [x], QueryProcessor.SumsFit y.mi.stored apartQuery := by
    rw [List.forall_mem_singleton, QueryProcessor.sumsFit_stored x.indexes x.wordBytes]
    intro q hq docId _
    have hsum := rankSum_le x.adds hcount q docId
    have hle : q.length ≤ 2 := hq.length_le
    have hmax : INT_MAX = 2147483647 := rfl
    omega
  have hroom : Quota.Within Search.opens Search.leaves 1000 0 ([x].map (search apartQuery)) :=
    Quota.within_of_length Search.opens_le Search.leaves_le (by simp)
  rcases processQuery_ends (mergeSorter _) 1000 (ready_new hserves) (show apartQuery ≠ [] by decide) with
    ⟨_, qp', results, _, hrun, _⟩ | ⟨hno, _⟩
  · refine ⟨readers, qp', [results], ?_, hserves, ?_⟩
    · have hone : QueryProcessor.openIndices true [x.file] = .ok readers := hopen
      rw [QueryProcessor.new, hone]
      rfl
    · rw [Simulation.run, hrun]
      rfl
  · exact absurd ⟨hfit, hroom⟩ hno

theorem readers_deleted_small : ∃ x : QueryProcessor.IndexedFile, x.names = smallNames ∧ x.adds = smallAdds ∧
    ∃ readers qp' results, QueryProcessor.new [x.file] true = .ok ⟨readers, 0⟩ ∧
      Simulation.run (processQuery (mergeSorter _) 1000) ⟨readers, .empty⟩ [apartQuery] = .ok (qp', results) ∧
      (∀ didtr, 0 ≤ didtr → didtr < qp'.heap.top → qp'.heap.frees didtr = 1) ∧
      qp'.heap.liveCount = (Heap.empty : DocIDTableReaders).liveCount := by
  obtain ⟨x, hnames, hadds⟩ := QueryProcessor.indexedFile_small
  obtain ⟨readers, qp', results, hnew, hserves, hrun⟩ := apartQuery_runs x (by rw [hadds]; decide)
  refine ⟨x, hnames, hadds, readers, qp', results, hnew, hrun, ?_⟩
  apply (readers_deleted_iff (mergeSorter _) 1000 Heap.fresh_empty hrun).mpr
  rw [List.forall_mem_singleton, serves_forall_iff hserves fun image itr => ¬RunsDry image itr apartQuery,
    List.forall_mem_singleton, runsDry_iff, search, hadds]
  decide

/-- Both words are in the index, in different documents: the reader of the
second is left. -/
theorem reader_left : ∃ x : QueryProcessor.IndexedFile, x.names = smallNames ∧ x.adds = apartAdds ∧
    ∃ readers qp' results, QueryProcessor.new [x.file] true = .ok ⟨readers, 0⟩ ∧
      Simulation.run (processQuery (mergeSorter _) 1000) ⟨readers, .empty⟩ [apartQuery] = .ok (qp', results) ∧
      (Heap.empty : DocIDTableReaders).liveCount < qp'.heap.liveCount := by
  obtain ⟨x, hnames, hadds⟩ : ∃ x : QueryProcessor.IndexedFile, x.names = smallNames ∧ x.adds = apartAdds :=
    QueryProcessor.exists_indexedFile (by decide) (by decide) (by decide +kernel)
  obtain ⟨readers, qp', results, hnew, hserves, hrun⟩ := apartQuery_runs x (by rw [hadds]; decide)
  refine ⟨x, hnames, hadds, readers, qp', results, hnew, hrun, ?_⟩
  have hg := run_grown Heap.fresh_empty hrun
  have hdry : RunsDry x.file.image x.itr apartQuery := by
    rw [runsDry_iff, search, hadds]
    decide
  have hleft := leaves_eq_zero_iff readers [apartQuery]
  rw [List.forall_mem_singleton, serves_forall_iff hserves fun image itr => ¬RunsDry image itr apartQuery,
    List.forall_mem_singleton] at hleft
  rw [hg.liveCount_eq]
  exact Nat.lt_add_of_pos_right (Nat.pos_of_ne_zero fun hzero => hleft.mp hzero hdry)

end SearchEngine.ReaderOwnership
