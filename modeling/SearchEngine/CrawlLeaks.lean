import SearchEngine.CrawlOwnership

/-! The blocks that a whole crawl leaves behind. -/

namespace SearchEngine.CrawlMemory

open HeapProgram Dir
open CrawlFileTree (Entry alphasort entryFiles firstPass visited visited_perm MAX_NUM_DIR_ENTRIES)

theorem Leaves.add {n m : Nat} {bufs rest : Held} {a : Crawl} {b : CrawlFileTree.Crawl} {held : Held}
    (h : Leaves n (bufs + rest) a b held) (hcard : bufs.card = m) (hbufs : ∀ x ∈ bufs, x.2 = .fileBuf) :
    Leaves (m + n) rest a b held := by
  obtain ⟨others, hcard', hothers, hsame, hgood, hheld⟩ := h
  refine ⟨others + bufs, ?_, ?_, hsame, hgood, ?_⟩
  · rw [Multiset.card_add, hcard, hcard', Nat.add_comm]
  · intro x hx
    rcases Multiset.mem_add.mp hx with hx | hx
    · exact hothers x hx
    · exact hbufs x hx
  · rw [hheld, add_assoc]

/-- The block that the crawl was given besides its own is freed. -/
theorem Leaves.free {α γ δ : Type} {n : Nat} {rest : Held} {a : Crawl} {b : CrawlFileTree.Crawl} {held : Held}
    {c : Block} {x : Ptr α} {f : Unit → Program γ} {r : Run δ} {post : γ → δ → Held → Prop}
    (h : Leaves n (x.cell c + rest) a b held)
    (hf : ∀ held', Leaves n rest a b held' → Follows held' (f ()) r post) :
    Follows held (CrawlMemory.free x >>= f) r post := by
  obtain ⟨bufs, hcard, hbufs, hsame, hgood, rfl⟩ := h
  refine Follows.free c (crawl.cells a + (bufs + rest)) ?_ ?_
  · abel
  · exact hf _ ⟨bufs, hcard, hbufs, hsame, hgood, rfl⟩

theorem growEntries_follows (i entriesCapacity : Nat) (entries : Ptr Unit) (rest : Held) :
    Follows (entries.cell .entries + rest) (growEntries i entriesCapacity entries) (.ok ())
      fun a (_ : Unit) held => held = a.1.cell .entries + rest := by
  unfold growEntries
  split
  · refine Follows.free .entries rest rfl ?_
    refine Follows.malloc fun entries' _ => ?_
    exact Follows.pure rfl
  · exact Follows.pure rfl

theorem recordEntries_follows (es : List Entry) (i entriesCapacity : Nat) (entries : Ptr Unit) (rest : Held) :
    Follows (entries.cell .entries + rest) (recordEntries i entriesCapacity entries es) (.ok ())
      fun a (_ : Unit) held => a.2.map Ptr.val = es ∧
        held = a.1.cell .entries + ((a.2.map (Ptr.cell · .pathName)).sum + rest) := by
  induction es generalizing i entriesCapacity entries rest with
  | nil =>
      refine Follows.pure ⟨rfl, ?_⟩
      rw [List.map_nil, List.sum_nil, zero_add]
  | cons e es ih =>
      unfold recordEntries
      refine Follows.silent (growEntries_follows i entriesCapacity entries rest) ?_
      rintro ⟨entries', entriesCapacity'⟩ held rfl
      refine Follows.malloc fun path hpath => ?_
      subst hpath
      rw [add_left_comm]
      refine Follows.silent (ih (i + 1) entriesCapacity' entries' (path.cell .pathName + rest)) ?_
      rintro ⟨entries'', paths⟩ held ⟨hvals, rfl⟩
      refine Follows.pure ⟨?_, ?_⟩
      · rw [List.map_cons, hvals]
      · rw [List.map_cons, List.sum_cons]
        abel

variable (qsort : Sorter fun e1 e2 => alphasort e1 e2 < 0)

section Entries

variable {handleSubDir : Bytes → Dir → Crawl → Program Crawl}
  {handleSubDir' : Bytes → Dir → CrawlFileTree.Crawl → Run CrawlFileTree.Crawl} {filesOf : Bytes → Dir → List File}
  (hsub : ∀ dirPath d s rest, crawl.Good s → Follows (crawl.cells s + rest) (handleSubDir dirPath d s)
    (handleSubDir' dirPath d (crawl.erase s)) (Leaves ((filesOf dirPath d).countP startsWithNul) rest))

include hsub

theorem handleEntry_follows (path : Ptr Entry) (s : Crawl) (hgood : crawl.Good s) (rest : Held) :
    Follows (crawl.cells s + (path.cell .pathName + rest)) (handleEntry handleSubDir s path)
      (CrawlFileTree.handleEntry handleSubDir' (crawl.erase s) path.val)
      (Leaves ((entryFiles filesOf path.val).countP startsWithNul) rest) := by
  unfold handleEntry CrawlFileTree.handleEntry entryFiles
  refine Follows.deref (by simp) ?_
  cases path.val.target with
  | file contents =>
      refine Follows.after (handleFile_follows s hgood ⟨path.val.pathName, contents⟩ (path.cell .pathName + rest)) ?_
      intro s' b held hleaves
      exact hleaves.free fun _ hdone => Follows.pure hdone
  | dir d =>
      refine Follows.malloc fun subDir _ => ?_
      have hdir := hsub path.val.pathName d s (subDir.cell .dir + (path.cell .pathName + rest)) hgood
      rw [add_left_comm] at hdir
      refine Follows.after hdir ?_
      intro s' b held hleaves
      exact hleaves.free fun _ hclosed => hclosed.free fun _ hdone => Follows.pure hdone

theorem handleEntries_follows (paths : List (Ptr Entry)) (s : Crawl) (hgood : crawl.Good s) (rest : Held) :
    Follows (crawl.cells s + ((paths.map (Ptr.cell · .pathName)).sum + rest))
      (paths.foldlM (handleEntry handleSubDir) s)
      ((paths.map Ptr.val).foldlM (CrawlFileTree.handleEntry handleSubDir') (crawl.erase s))
      (Leaves (((paths.map Ptr.val).flatMap (entryFiles filesOf)).countP startsWithNul) rest) := by
  induction paths generalizing s rest with
  | nil =>
      refine Follows.pure ⟨0, rfl, by simp, rfl, hgood, ?_⟩
      simp
  | cons path paths ih =>
      rw [List.map_cons, List.map_cons, List.sum_cons, List.foldlM_cons, List.foldlM_cons, List.flatMap_cons,
        List.countP_append, add_assoc]
      refine Follows.bind (handleEntry_follows hsub path s hgood _) ?_
      rintro s' _ held ⟨bufs, hcard, hbufs, rfl, hgood', rfl⟩
      rw [add_left_comm bufs]
      refine (ih s' hgood' (bufs + rest)).mono ?_
      intro a b held hleaves
      exact hleaves.add hcard hbufs

end Entries

theorem handleDir_follows (depth : Nat) (dirPath : Bytes) (d : Dir) (s : Crawl) (rest : Held) (hgood : crawl.Good s) :
    Follows (crawl.cells s + rest) (handleDir qsort depth dirPath d s)
      (CrawlFileTree.handleDir qsort depth dirPath d (crawl.erase s))
      (Leaves ((visited qsort depth dirPath d).countP startsWithNul) rest) := by
  induction depth generalizing dirPath d s rest with
  | zero => exact Follows.fail Fault.outOfFuel
  | succ depth ih =>
      unfold handleDir CrawlFileTree.handleDir visited
      refine Follows.malloc fun entries _ => ?_
      refine Follows.silent (recordEntries_follows (qsort.sort (firstPass dirPath 0 d)) 0 16 entries
        (crawl.cells s + rest)) ?_
      rintro ⟨entries', paths⟩ held ⟨hvals, rfl⟩
      dsimp only at hvals ⊢
      have hall := handleEntries_follows ih paths s hgood (entries'.cell .entries + rest)
      rw [hvals] at hall
      have hcells : entries'.cell .entries + ((paths.map (Ptr.cell · .pathName)).sum + (crawl.cells s + rest)) =
          crawl.cells s + ((paths.map (Ptr.cell · .pathName)).sum + (entries'.cell .entries + rest)) := by
        abel
      rw [hcells]
      refine Follows.after hall ?_
      intro s' b held hleaves
      exact hleaves.free fun _ hdone => Follows.pure hdone

theorem crawlFileTree_follows (rootDir : Bytes) (d : Dir) (rest : Held) :
    Follows rest (crawlFileTree qsort rootDir (some (.dir d)))
      (CrawlFileTree.crawlFileTree qsort rootDir (some (.dir d)))
      fun a b held => ∃ s b', a = some s ∧ b = some b' ∧
        Leaves ((visited qsort (d.depth + 1) rootDir d).countP startsWithNul) rest s b' held := by
  unfold crawlFileTree CrawlFileTree.crawlFileTree
  refine Follows.malloc fun rd _ => ?_
  refine Follows.bind (docTableAllocate_follows (rd.cell .dir + rest)) ?_
  rintro docTable _ held ⟨rfl, hgood, rfl⟩
  refine Follows.bind (memIndexAllocate_follows _) ?_
  rintro ix _ held ⟨rfl, hgood', rfl⟩
  have hdir := handleDir_follows qsort (d.depth + 1) rootDir d ⟨docTable, ix⟩ (rd.cell .dir + rest) ⟨hgood, hgood'⟩
  have hcells : index.cells ix + (docs.cells docTable + (rd.cell .dir + rest)) =
      crawl.cells ⟨docTable, ix⟩ + (rd.cell .dir + rest) := by
    simp only [crawl]
    abel
  rw [hcells]
  refine Follows.bind hdir ?_
  intro s b held hleaves
  exact hleaves.free fun _ hdone => Follows.pure ⟨s, b, rfl, rfl, hdone⟩

theorem crawlAndFree_follows (rootDir : Bytes) (d : Dir) :
    Follows 0 (crawlAndFree qsort rootDir (some (.dir d)))
      (Option.isSome <$> CrawlFileTree.crawlFileTree qsort rootDir (some (.dir d)))
      fun a (_ : Bool) held => a = true ∧ held.card = (visited qsort (d.depth + 1) rootDir d).countP startsWithNul ∧
        ∀ x ∈ held, x.2 = .fileBuf := by
  unfold crawlAndFree
  rw [map_eq_pure_bind]
  refine Follows.bind (crawlFileTree_follows qsort rootDir d 0) ?_
  rintro _ _ held ⟨s, b, rfl, rfl, bufs, hcard, hbufs, _, _, rfl⟩
  refine Follows.frees (index.cells s.index + bufs) (docTableFree_frees s.docTable) ?_ ?_
  · simp only [crawl, add_zero]
    abel
  refine Follows.frees bufs (memIndexFree_frees s.index) rfl ?_
  exact Follows.pure ⟨rfl, hcard, hbufs⟩

/-- Crawling a tree and freeing the result faults only where the crawl without
a heap does. Otherwise every such block is freed once, but for the contents of
the files that begin with a zero byte. In a tree that fits the crawl, the files it
visits are all there are. -/
theorem crawl_leaks (rootDir : Bytes) (d : Dir) :
    (∀ e, (crawlAndFree qsort rootDir (some (.dir d))).run Heap.empty = .error e ↔
      CrawlFileTree.crawlFileTree qsort rootDir (some (.dir d)) = .error e) ∧
    (∀ done h, (crawlAndFree qsort rootDir (some (.dir d))).run Heap.empty = .ok (done, h) →
      done = true ∧ ∃ leaked : Finset Nat,
        leaked.card = (visited qsort (d.depth + 1) rootDir d).countP startsWithNul ∧
        (∀ a ∈ leaked, h.load a = some .fileBuf) ∧ ∀ a < h.top, h.frees a = if a ∈ leaked then 0 else 1) ∧
    (d.Valid MAX_NUM_DIR_ENTRIES → (visited qsort (d.depth + 1) rootDir d).Perm (d.files rootDir)) := by
  have hrun := crawlAndFree_follows qsort rootDir d Heap.empty Heap.holds_empty
  refine ⟨?_, ?_, visited_perm qsort _ rootDir d (Nat.lt_succ_self _)⟩
  · intro e
    rw [hrun.error_iff]
    cases CrawlFileTree.crawlFileTree qsort rootDir (some (.dir d)) <;> simp
  · intro done h hdone
    obtain ⟨_, held, hold, rfl, hcard, hall⟩ := hrun.of_ok hdone
    obtain ⟨leaked, hleaked, hloads, hfrees⟩ := hold.uniform hall
    exact ⟨rfl, leaked, hleaked.trans hcard, hloads, hfrees⟩

end SearchEngine.CrawlMemory
