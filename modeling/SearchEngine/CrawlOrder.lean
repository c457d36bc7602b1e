import SearchEngine.CrawlCoverage
import Mathlib.Data.List.Pairwise

namespace SearchEngine

namespace Dir

/-- One entry that readdir returns, put before the others. -/
inductive Item
  | dots
  | file (name contents : Bytes)
  | sub (name : Bytes) (dir : Dir)

def cons : Item → Dir → Dir
  | .dots, rest => .dots rest
  | .file name contents, rest => .file name contents rest
  | .sub name dir, rest => .sub name dir rest

/-- The same tree, with the entries of each of its directories in another
order. -/
inductive Reordered : Dir → Dir → Prop
  | refl (d : Dir) : Reordered d d
  | swap (a b : Item) (rest : Dir) : Reordered (cons a (cons b rest)) (cons b (cons a rest))
  | inner (name : Bytes) {dir dir' : Dir} (rest : Dir) (h : Reordered dir dir') :
      Reordered (.sub name dir rest) (.sub name dir' rest)
  | cons (a : Item) {rest rest' : Dir} (h : Reordered rest rest') : Reordered (cons a rest) (cons a rest')
  | trans {d₁ d₂ d₃ : Dir} (h₁ : Reordered d₁ d₂) (h₂ : Reordered d₂ d₃) : Reordered d₁ d₃

inductive SameTarget : Target → Target → Prop
  | file (contents : Bytes) : SameTarget (.file contents) (.file contents)
  | dir {d d' : Dir} (h : Reordered d d') : SameTarget (.dir d) (.dir d')

def SameEntry (e e' : Bytes × Target) : Prop := e.1 = e'.1 ∧ SameTarget e.2 e'.2

def itemEntry : Item → List (Bytes × Target)
  | .dots => []
  | .file name contents => [(name, .file contents)]
  | .sub name dir => [(name, .dir dir)]

def itemDepth : Item → Nat
  | .sub _ dir => dir.depth + 1
  | _ => 0

theorem entries_cons (a : Item) (rest : Dir) : (cons a rest).entries = itemEntry a ++ rest.entries := by
  cases a <;> rfl

theorem depth_cons (a : Item) (rest : Dir) : (cons a rest).depth = max (itemDepth a) rest.depth := by
  cases a <;> simp [cons, depth, itemDepth]

theorem SameTarget.refl (t : Target) : SameTarget t t := by
  cases t with
  | file contents => exact .file contents
  | dir d => exact .dir (.refl d)

theorem SameTarget.trans {t u v : Target} (h₁ : SameTarget t u) (h₂ : SameTarget u v) : SameTarget t v := by
  cases h₁ with
  | file contents => exact h₂
  | dir h₁ =>
      cases h₂ with
      | dir h₂ => exact .dir (h₁.trans h₂)

theorem sameEntries_refl (es : List (Bytes × Target)) : List.Forall₂ SameEntry es es := by
  apply List.forall₂_same.mpr
  intro e _
  exact ⟨rfl, .refl e.2⟩

theorem sameEntries_trans {es fs gs : List (Bytes × Target)} (h₁ : List.Forall₂ SameEntry es fs)
    (h₂ : List.Forall₂ SameEntry fs gs) : List.Forall₂ SameEntry es gs := by
  induction h₁ generalizing gs with
  | nil => exact h₂
  | cons he _ ih =>
      cases h₂ with
      | cons hf hrest => exact .cons ⟨he.1.trans hf.1, he.2.trans hf.2⟩ (ih hrest)

theorem Reordered.depth {d d' : Dir} (h : Reordered d d') : d.depth = d'.depth := by
  induction h with
  | refl d => rfl
  | swap a b rest => simp only [depth_cons, Nat.max_left_comm]
  | inner name rest h ih => simp only [Dir.depth, ih]
  | cons a h ih => simp only [depth_cons, ih]
  | trans h₁ h₂ ih₁ ih₂ => exact ih₁.trans ih₂

theorem Reordered.entries {d d' : Dir} (h : Reordered d d') :
    ∃ es, List.Forall₂ SameEntry d.entries es ∧ es.Perm d'.entries := by
  induction h with
  | refl d => exact ⟨d.entries, sameEntries_refl _, .refl _⟩
  | swap a b rest =>
      refine ⟨_, sameEntries_refl _, ?_⟩
      simp only [entries_cons, ← List.append_assoc]
      exact List.perm_append_comm.append_right _
  | inner name rest h ih =>
      refine ⟨_, ?_, .refl _⟩
      exact .cons ⟨rfl, .dir h⟩ (sameEntries_refl _)
  | cons a h ih =>
      obtain ⟨es, hes, hperm⟩ := ih
      refine ⟨itemEntry a ++ es, ?_, ?_⟩
      · rw [entries_cons]
        exact List.rel_append (sameEntries_refl _) hes
      · rw [entries_cons]
        exact hperm.append_left _
  | trans h₁ h₂ ih₁ ih₂ =>
      obtain ⟨es₁, hes₁, hperm₁⟩ := ih₁
      obtain ⟨es₂, hes₂, hperm₂⟩ := ih₂
      obtain ⟨es, hes, hperm⟩ := List.perm_comp_forall₂ hperm₁ hes₂
      exact ⟨es, sameEntries_trans hes₁ hes, hperm.trans hperm₂⟩

theorem names_of_sameEntries {es fs : List (Bytes × Target)} (h : List.Forall₂ SameEntry es fs) :
    es.map Prod.fst = fs.map Prod.fst := by
  induction h with
  | nil => rfl
  | cons he _ ih => rw [List.map_cons, List.map_cons, he.1, ih]

theorem Reordered.names {d d' : Dir} (h : Reordered d d') : d.names.Perm d'.names := by
  obtain ⟨es, hes, hperm⟩ := h.entries
  rw [names_eq, names_eq, names_of_sameEntries hes]
  exact hperm.map Prod.fst

/-- A property of every directory below this one, and of the path it has. -/
def EveryPath (p : Bytes → Dir → Prop) (dirPath : Bytes) : Dir → Prop
  | nil => True
  | dots rest => rest.EveryPath p dirPath
  | file _ _ rest => rest.EveryPath p dirPath
  | sub name dir rest =>
      p (pathName dirPath name) dir ∧ dir.EveryPath p (pathName dirPath name) ∧ rest.EveryPath p dirPath

theorem everyPath_of_mem {p : Bytes → Dir → Prop} {dirPath name : Bytes} {d dir : Dir} (hd : d.EveryPath p dirPath)
    (h : (name, Target.dir dir) ∈ d.entries) :
    p (pathName dirPath name) dir ∧ dir.EveryPath p (pathName dirPath name) := by
  induction d with
  | nil => simp [entries] at h
  | dots rest ih => exact ih hd h
  | file n contents rest ih =>
      simp only [entries, List.mem_cons, Prod.mk.injEq, reduceCtorEq, and_false, false_or] at h
      exact ih hd h
  | sub n sub rest _ ih =>
      simp only [entries, List.mem_cons, Prod.mk.injEq, Target.dir.injEq] at h
      obtain ⟨hp, hsub, hrest⟩ := hd
      rcases h with ⟨rfl, rfl⟩ | h
      · exact ⟨hp, hsub⟩
      · exact ih hrest h

end Dir

namespace CrawlFileTree

open Dir FileParser

theorem strncmp_swap (n : Nat) (as bs : Bytes) : strncmp n as bs = -strncmp n bs as := by
  induction n generalizing as bs with
  | zero => rfl
  | succ n ih =>
      unfold strncmp
      by_cases h : as.headD 0 = bs.headD 0
      · simp only [h, ne_eq, not_true, if_false]
        split
        · rfl
        · exact ih as.tail bs.tail
      · have h' : ¬bs.headD 0 = as.headD 0 := fun he => h he.symm
        rw [if_pos h, if_pos h']
        omega

theorem strncmp_nonneg (n : Nat) (as bs : Bytes) :
    0 ≤ strncmp (n + 1) as bs ↔ (bs.headD 0).toNat < (as.headD 0).toNat ∨
      (as.headD 0).toNat = (bs.headD 0).toNat ∧ ((as.headD 0).toNat = 0 ∨ 0 ≤ strncmp n as.tail bs.tail) := by
  rw [strncmp]
  by_cases h : as.headD 0 = bs.headD 0
  · have hzero : bs.headD 0 = 0 ↔ (bs.headD 0).toNat = 0 := by rw [← UInt8.toNat_inj, UInt8.toNat_zero]
    simp only [h, ne_eq, not_true, if_false, Nat.lt_irrefl, true_and, false_or, ← hzero]
    split
    · next hz => simp only [hz, true_or, Int.le_refl]
    · next hz => simp only [hz, false_or]
  · rw [if_pos h]
    rw [← UInt8.toNat_inj] at h
    omega

theorem strncmp_trans {n : Nat} {as bs cs : Bytes} (h₁ : 0 ≤ strncmp n bs as) (h₂ : 0 ≤ strncmp n cs bs) :
    0 ≤ strncmp n cs as := by
  induction n generalizing as bs cs with
  | zero => exact h₁
  | succ n ih =>
      rw [strncmp_nonneg] at h₁ h₂ ⊢
      rcases h₁ with h₁ | ⟨hab, h₁⟩
      · rcases h₂ with h₂ | ⟨hbc, _⟩
        · exact .inl (Nat.lt_trans h₁ h₂)
        · exact .inl (hbc ▸ h₁)
      · rcases h₂ with h₂ | ⟨hbc, h₂⟩
        · exact .inl (hab ▸ h₂)
        · refine .inr ⟨hbc.trans hab, ?_⟩
          rcases h₂ with h₂ | h₂
          · exact .inl h₂
          · rcases h₁ with h₁ | h₁
            · exact .inl (hbc.trans h₁)
            · exact .inr (ih h₁ h₂)

theorem alphasort_strictWeak : StrictWeak fun e1 e2 => decide (alphasort e1 e2 < 0) where
  asymm a b h := by
    have hlt : alphasort a b < 0 := of_decide_eq_true h
    have hswap : alphasort a b = -alphasort b a := strncmp_swap _ _ _
    apply decide_eq_false
    omega
  trans a b c h₁ h₂ := by
    have hba : 0 ≤ alphasort b a := Int.not_lt.mp (of_decide_eq_false h₁)
    have hcb : 0 ≤ alphasort c b := Int.not_lt.mp (of_decide_eq_false h₂)
    have hca : 0 ≤ alphasort c a := strncmp_trans hba hcb
    exact decide_eq_false (Int.not_lt.mpr hca)

/-- The entries of a directory are at most as many as are recorded, and the
comparison of their paths tells them apart. -/
structure WithinLimits (dirPath : Bytes) (d : Dir) : Prop where
  proper : ∀ name ∈ d.names, ProperName name
  small : d.names.length ≤ MAX_NUM_DIR_ENTRIES
  apart : d.names.Pairwise fun a b => strncmp MAX_PATHNAME_LENGTH (pathName dirPath a) (pathName dirPath b) ≠ 0

structure SameRecord (e e' : Entry) : Prop where
  pathName : e.pathName = e'.pathName
  target : SameTarget e.target e'.target

variable (qsort qsort' : Sorter fun e1 e2 => alphasort e1 e2 < 0)

theorem WithinLimits.recorded {dirPath : Bytes} {d : Dir} (hd : WithinLimits dirPath d) :
    firstPass dirPath 0 d = d.entries.map fun e => ⟨pathName dirPath e.1, e.2⟩ :=
  firstPass_eq dirPath 0 d hd.proper (by rw [Nat.zero_add]; exact hd.small)

theorem WithinLimits.reordered {dirPath : Bytes} {d d' : Dir} (hd : WithinLimits dirPath d) (h : Reordered d d') :
    WithinLimits dirPath d' := by
  have hperm := h.names
  constructor
  · intro name hname
    exact hd.proper name (hperm.mem_iff.mpr hname)
  · rw [← hperm.length_eq]
    exact hd.small
  · apply hperm.pairwise hd.apart
    intro a b hne
    rw [strncmp_swap]
    omega

theorem WithinLimits.eq_of_alphasort {dirPath : Bytes} {d : Dir} (hd : WithinLimits dirPath d)
    {e₁ e₂ : Bytes × Target} (h₁ : e₁ ∈ d.entries) (h₂ : e₂ ∈ d.entries)
    (h : strncmp MAX_PATHNAME_LENGTH (pathName dirPath e₁.1) (pathName dirPath e₂.1) = 0) : e₁ = e₂ := by
  have hapart := hd.apart
  rw [names_eq, List.pairwise_map] at hapart
  have hsymm : Std.Symm fun e₁ e₂ : Bytes × Target =>
      strncmp MAX_PATHNAME_LENGTH (pathName dirPath e₁.1) (pathName dirPath e₂.1) ≠ 0 := by
    constructor
    intro a b hne
    rw [strncmp_swap]
    omega
  by_contra hne
  exact hapart.forall h₁ h₂ hne h

theorem WithinLimits.sort {dirPath : Bytes} {d d' : Dir} (hd : WithinLimits dirPath d) (h : Reordered d d') :
    List.Forall₂ SameRecord (qsort.sort (firstPass dirPath 0 d)) (qsort'.sort (firstPass dirPath 0 d')) := by
  obtain ⟨es, hes, hperm⟩ := h.entries
  have hd' := hd.reordered h
  rw [hd.recorded, hd'.recorded]
  have hrel : List.Forall₂ SameRecord (d.entries.map fun e => (⟨pathName dirPath e.1, e.2⟩ : Entry))
      (es.map fun e => ⟨pathName dirPath e.1, e.2⟩) := by
    rw [List.forall₂_map_left_iff, List.forall₂_map_right_iff]
    apply hes.imp
    intro e e' he
    exact ⟨by rw [he.1], he.2⟩
  apply qsort.sort_related qsort' alphasort_strictWeak _ hrel (hperm.map _)
  · intro a ha b hb hab hba
    obtain ⟨e₁, h₁, rfl⟩ := List.mem_map.mp ha
    obtain ⟨e₂, h₂, rfl⟩ := List.mem_map.mp hb
    have hge := Int.not_lt.mp (of_decide_eq_false hab)
    have hle := Int.not_lt.mp (of_decide_eq_false hba)
    simp only [alphasort] at hge hle
    have hswap := strncmp_swap MAX_PATHNAME_LENGTH (pathName dirPath e₁.1) (pathName dirPath e₂.1)
    rw [hd'.eq_of_alphasort h₁ h₂ (by omega)]
  · intro a a' b b' ha hb
    rw [alphasort, alphasort, ha.pathName, hb.pathName]

theorem foldlM_related {α σ : Type} {f g : σ → α → Run σ} {l l' : List α}
    (h : List.Forall₂ (fun a a' => ∀ s, f s a = g s a') l l') (s : σ) : l.foldlM f s = l'.foldlM g s := by
  induction h generalizing s with
  | nil => rfl
  | cons ha _ ih =>
      rw [List.foldlM_cons, List.foldlM_cons, ha]
      congr 1
      funext s'
      exact ih s'

theorem handleDir_reordered (depth : Nat) (dirPath : Bytes) {d d' : Dir} (h : Reordered d d')
    (hd : WithinLimits dirPath d) (hsub : d.EveryPath WithinLimits dirPath) (hdepth : d.depth < depth) (s : Crawl) :
    handleDir qsort depth dirPath d s = handleDir qsort' depth dirPath d' s := by
  induction depth generalizing dirPath d d' s with
  | zero => omega
  | succ depth ih =>
      unfold handleDir
      apply foldlM_related
      have hmem : ∀ e ∈ qsort.sort (firstPass dirPath 0 d), ∃ x ∈ d.entries, e = ⟨pathName dirPath x.1, x.2⟩ := by
        intro e he
        rw [(qsort.perm _).mem_iff, hd.recorded] at he
        obtain ⟨x, hx, rfl⟩ := List.mem_map.mp he
        exact ⟨x, hx, rfl⟩
      apply ((List.forall₂_and_left _ _).mpr ⟨hmem, hd.sort qsort qsort' h⟩).imp
      rintro e e' ⟨⟨⟨name, t⟩, hx, rfl⟩, hpath, htarget⟩ s
      obtain ⟨path', t'⟩ := e'
      obtain rfl : pathName dirPath name = path' := hpath
      cases htarget with
      | file contents => rfl
      | dir hdir =>
          obtain ⟨hlimits, hbelow⟩ := everyPath_of_mem hsub hx
          have hlt := depth_of_mem hx
          exact ih (pathName dirPath name) hdir hlimits hbelow (by omega) s

/-- A crawl of a tree within the limits does not depend on the order in which
its directories are read, nor on the sort. -/
theorem crawlFileTree_reordered (rootDir : Bytes) {d d' : Dir} (h : Reordered d d') (hd : WithinLimits rootDir d)
    (hsub : d.EveryPath WithinLimits rootDir) :
    crawlFileTree qsort rootDir (some (.dir d)) = crawlFileTree qsort' rootDir (some (.dir d')) := by
  have hdir : handleDir qsort (d.depth + 1) rootDir d = handleDir qsort' (d'.depth + 1) rootDir d' := by
    funext s
    rw [← h.depth]
    exact handleDir_reordered qsort qsort' _ rootDir h hd hsub (Nat.lt_succ_self _) s
  simp only [crawlFileTree, hdir]

instance (dirPath : Bytes) (d : Dir) : Decidable (WithinLimits dirPath d) :=
  decidable_of_iff ((∀ name ∈ d.names, ProperName name) ∧ d.names.length ≤ MAX_NUM_DIR_ENTRIES ∧
      d.names.Pairwise fun a b => strncmp MAX_PATHNAME_LENGTH (pathName dirPath a) (pathName dirPath b) ≠ 0)
    ⟨fun ⟨h₁, h₂, h₃⟩ => ⟨h₁, h₂, h₃⟩, fun h => ⟨h.proper, h.small, h.apart⟩⟩

theorem crawlFileTree_reordered_smallTree :
    crawlFileTree (mergeSorter _) (ascii ['.']) (some (.dir smallTree)) =
      crawlFileTree (mergeSorter _) (ascii ['.']) (some (.dir
        (.file (ascii ['e']) [0xff] (.dots
          (.sub (ascii ['d']) (.file (ascii ['f']) (ascii ['B', 'y', ' ', 'b', 'y', '.']) .nil) .nil))))) := by
  have hswap := Reordered.cons .dots (.swap (.sub (ascii ['d'])
    (.file (ascii ['f']) (ascii ['B', 'y', ' ', 'b', 'y', '.']) .nil)) (.file (ascii ['e']) [0xff]) .nil)
  refine crawlFileTree_reordered (mergeSorter _) (mergeSorter _) (ascii ['.'])
    (hswap.trans (.swap .dots (.file (ascii ['e']) [0xff]) _)) (by decide) ⟨by decide, trivial, trivial⟩

/-- The same documents under the same numbers, and the same positions of each
word in them. -/
def SameCrawl (s s' : Crawl) : Prop :=
  (∀ docId, s.docTable.getDocName docId = s'.docTable.getDocName docId) ∧
    ∀ word docId, (s.index.postingsAt (hashString word) docId).map LinkedList.payloads =
      (s'.index.postingsAt (hashString word) docId).map LinkedList.payloads

def OrderIndependent (rootDir : Bytes) (d d' : Dir) : Prop :=
  ∀ s s', crawlFileTree qsort rootDir (some (.dir d)) = .ok (some s) →
    crawlFileTree qsort rootDir (some (.dir d')) = .ok (some s') → SameCrawl s s'

def binaryName (n : Nat) : Bytes := [98, UInt8.ofNat (65 + n / 26), UInt8.ofNat (65 + n % 26)]

/-- So many files that are not text, before the others. -/
def binaries : Nat → Dir → Dir
  | 0, rest => rest
  | n + 1, rest => .file (binaryName n) [0xff] (binaries n rest)

def text : Item := .file (ascii ['a']) (ascii ['b', 'y', ' '])

theorem binaries_reordered (n : Nat) (rest : Dir) :
    Reordered (cons text (binaries n rest)) (binaries n (cons text rest)) := by
  induction n with
  | zero => exact .refl _
  | succ n ih => exact (Reordered.swap text (.file _ _) _).trans (.cons (.file _ _) ih)

def binaryEntries (dirPath : Bytes) : Nat → List Entry
  | 0 => []
  | n + 1 => ⟨pathName dirPath (binaryName n), .file [0xff]⟩ ::
      binaryEntries dirPath n

theorem firstPass_binaries (dirPath : Bytes) (i n : Nat) (rest : Dir) (h : i + n ≤ MAX_NUM_DIR_ENTRIES) :
    firstPass dirPath i (binaries n rest) = binaryEntries dirPath n ++ firstPass dirPath (i + n) rest := by
  induction n generalizing i with
  | zero => rfl
  | succ n ih =>
      rw [binaries, CrawlFileTree.firstPass, if_pos (by omega), if_neg (by simp [isDots, binaryName]),
        ih (i + 1) (by omega),
        binaryEntries, Nat.add_assoc, Nat.add_comm 1 n]
      rfl

theorem firstPass_full (dirPath : Bytes) (d : Dir) : firstPass dirPath MAX_NUM_DIR_ENTRIES d = [] := by
  cases d <;> rfl

theorem handleFile_binary (path : Bytes) (s : Crawl) : handleFile s ⟨path, [0xff]⟩ = .ok s := by
  have hparse : parseIntoWordPositionsTable [0xff] = .ok none := by
    rw [parse_eq (by decide)]
    exact if_pos (by decide)
  rw [handleFile_eq s ⟨path, [0xff]⟩ (by simp), if_neg (by simp), hparse]
  rfl

theorem handleBinaries (handleSubDir : Bytes → Dir → Crawl → Run Crawl) (es : List Entry)
    (h : ∀ e ∈ es, e.target = .file [0xff]) (s : Crawl) : es.foldlM (handleEntry handleSubDir) s = .ok s := by
  induction es with
  | nil => rfl
  | cons e es ih =>
      have hskip : handleEntry handleSubDir s e = .ok s := by
        rw [handleEntry, h e (by simp)]
        exact handleFile_binary e.pathName s
      rw [List.foldlM_cons, hskip, Run.ok_bind]
      exact ih fun e he => h e (by simp [he])

theorem binaryEntries_target (dirPath : Bytes) (n : Nat) :
    ∀ e ∈ binaryEntries dirPath n, e.target = .file [0xff] := by
  induction n with
  | zero => simp [binaryEntries]
  | succ n ih => simpa [binaryEntries] using ih

def textFirst (n : Nat) : Dir := cons text (binaries n .nil)

def textLast (n : Nat) : Dir := binaries n (cons text .nil)

theorem crawl_start : ∃ start : Crawl, (∀ docId, start.docTable.getDocName docId ≠ .ok (some (ascii ['.', '/', 'a']))) ∧
    (∃ s, handleFile start ⟨ascii ['.', '/', 'a'], ascii ['b', 'y', ' ']⟩ = .ok s ∧
      s.docTable.getDocName 1 = .ok (some (ascii ['.', '/', 'a']))) ∧
    ∀ d, crawlFileTree qsort (ascii ['.']) (some (.dir d)) = do
      let s ← handleDir qsort (d.depth + 1) (ascii ['.']) d start
      return some s := by
  have h : (do
      let docTable ← DocTable.allocate
      let index ← MemIndex.allocate
      let s ← handleFile ⟨docTable, index⟩ ⟨ascii ['.', '/', 'a'], ascii ['b', 'y', ' ']⟩
      s.docTable.getDocName 1 : Run (Option Bytes)) = .ok (some (ascii ['.', '/', 'a'])) := by
    decide +kernel
  obtain ⟨docTable, hdocs, h⟩ := Run.bind_eq_ok.mp h
  obtain ⟨index, hindex, h⟩ := Run.bind_eq_ok.mp h
  obtain ⟨s, hs, h⟩ := Run.bind_eq_ok.mp h
  obtain ⟨docTable', index', hdocs', hindex', hstart⟩ := start_crawled
  rw [hdocs] at hdocs'
  rw [hindex] at hindex'
  obtain rfl := Except.ok.inj hdocs'
  obtain rfl := Except.ok.inj hindex'
  refine ⟨⟨docTable, index⟩, ?_, ⟨s, hs, h⟩, ?_⟩
  · intro docId hname
    obtain ⟨i, tab, hi, _⟩ := hstart.getDocName.mp hname
    simp [indexed] at hi
  · intro d
    simp only [crawlFileTree, hdocs, hindex, Run.ok_bind]

theorem binaries_entries (n : Nat) : ∀ e ∈ (binaries n .nil).entries, e.2 = .file [0xff] := by
  induction n with
  | zero => simp [binaries, entries]
  | succ n ih => simpa [binaries, entries] using ih

theorem textLast_run (start : Crawl) {n : Nat} (hn : n = MAX_NUM_DIR_ENTRIES) :
    handleDir qsort ((textLast n).depth + 1) (ascii ['.']) (textLast n) start = .ok start := by
  have hpass : firstPass (ascii ['.']) 0 (textLast n) = binaryEntries (ascii ['.']) n := by
    rw [textLast, firstPass_binaries _ _ _ _ (by omega), Nat.zero_add, hn, firstPass_full, List.append_nil]
  unfold handleDir
  rw [hpass]
  apply handleBinaries
  intro e he
  exact binaryEntries_target _ _ e ((qsort.perm _).mem_iff.mp he)

theorem textFirst_run (start : Crawl) (n : Nat) :
    handleDir qsort ((textFirst n).depth + 1) (ascii ['.']) (textFirst n) start =
      handleFile start ⟨ascii ['.', '/', 'a'], ascii ['b', 'y', ' ']⟩ := by
  have hpass : firstPass (ascii ['.']) 0 (textFirst n) = ⟨ascii ['.', '/', 'a'], .file (ascii ['b', 'y', ' '])⟩ ::
      firstPass (ascii ['.']) 1 (binaries n .nil) := rfl
  have hbinary : ∀ e ∈ firstPass (ascii ['.']) 1 (binaries n .nil), e.target = .file [0xff] := by
    intro e he
    obtain ⟨x, hx, rfl⟩ := List.mem_map.mp ((firstPass_sublist _ _ _).subset he)
    exact binaries_entries n x hx
  unfold handleDir
  rw [hpass]
  have hperm := qsort.perm (⟨ascii ['.', '/', 'a'], .file (ascii ['b', 'y', ' '])⟩ ::
    firstPass (ascii ['.']) 1 (binaries n .nil))
  obtain ⟨before, after, hsort⟩ := List.append_of_mem (hperm.mem_iff.mpr List.mem_cons_self)
  rw [hsort] at hperm ⊢
  have hrest := (List.perm_middle.symm.trans hperm).cons_inv
  have hothers : ∀ e ∈ before ++ after, e.target = .file [0xff] := fun e he => hbinary e (hrest.mem_iff.mp he)
  rw [List.foldlM_append, handleBinaries _ before (fun e he => hothers e (by simp [he])), Run.ok_bind,
    List.foldlM_cons]
  have htext := handleEntry_file (handleDir qsort (textFirst n).depth) (ascii ['.', '/', 'a'])
    (ascii ['b', 'y', ' ']) start
  simp only [List.foldlM_cons, List.foldlM_nil, bind_pure] at htext
  rw [htext]
  cases handleFile start ⟨ascii ['.', '/', 'a'], ascii ['b', 'y', ' ']⟩ with
  | error e => rfl
  | ok s => exact handleBinaries _ after (fun e he => hothers e (by simp [he])) s

/-- Beyond 512 entries it is the order that decides which of them are read. -/
theorem overfull_dependent {n : Nat} (hn : n = MAX_NUM_DIR_ENTRIES) :
    ¬OrderIndependent qsort (ascii ['.']) (textFirst n) (textLast n) := by
  obtain ⟨start, hnone, ⟨s, hs, hname⟩, hcrawl⟩ := crawl_start qsort
  intro hsame
  have hfirst := hcrawl (textFirst n)
  have hlast := hcrawl (textLast n)
  rw [textFirst_run, hs] at hfirst
  rw [textLast_run qsort start hn] at hlast
  have hdoc := (hsame s start hfirst hlast).1 1
  rw [hname] at hdoc
  exact hnone 1 hdoc.symm

theorem binaryName_inj {i j : Nat} (hi : i < 512) (hj : j < 512) (h : binaryName i = binaryName j) : i = j := by
  simp only [binaryName, List.cons.injEq, ← UInt8.toNat_inj, UInt8.toNat_ofNat'] at h
  omega

theorem binaryName_proper {i : Nat} (hi : i < 512) : ProperName (binaryName i) := by
  refine ⟨by simp [binaryName], ?_, by simp [isDots, binaryName]⟩
  simp only [binaryName, List.mem_cons, List.not_mem_nil, or_false, ← UInt8.toNat_inj, UInt8.toNat_ofNat',
    UInt8.reduceToNat]
  omega

theorem binaries_names (n : Nat) : (binaries n .nil).names = (List.range n).reverse.map binaryName := by
  induction n with
  | zero => rfl
  | succ n ih =>
      rw [binaries, names, ih, List.range_succ, List.reverse_append]
      rfl

theorem binaries_everySub (p : Dir → Prop) (n : Nat) : (binaries n .nil).EverySub p := by
  induction n with
  | zero => trivial
  | succ n ih => exact ih

theorem textFirst_valid {n : Nat} (hn : n = MAX_NUM_DIR_ENTRIES) : (textFirst n).Valid (n + 1) := by
  have hlt : ∀ i, i < n ↔ i < 512 := by
    intro i
    rw [hn, MAX_NUM_DIR_ENTRIES]
  have hnames : (textFirst n).names = ascii ['a'] :: (List.range n).reverse.map binaryName := by
    rw [← binaries_names]
    rfl
  refine ⟨⟨?_, ?_, ?_⟩, binaries_everySub _ n⟩
  · rw [hnames, List.forall_mem_cons]
    refine ⟨by decide, ?_⟩
    intro name hname
    obtain ⟨i, hi, rfl⟩ := List.mem_map.mp hname
    rw [List.mem_reverse, List.mem_range, hlt] at hi
    exact binaryName_proper hi
  · rw [hnames, List.nodup_cons]
    constructor
    · simp [binaryName, ascii]
    · apply List.Nodup.map_on _ (List.nodup_reverse.mpr List.nodup_range)
      intro i hi j hj
      rw [List.mem_reverse, List.mem_range, hlt] at hi hj
      exact binaryName_inj hi hj
  · rw [hnames, List.length_cons, List.length_map, List.length_reverse, List.length_range]

/-- A path of 1024 bytes, of 127 components with seven letters and one with
eight. -/
def longRoot : Bytes := (List.replicate 127 (List.replicate 7 97 ++ [47])).flatten ++ List.replicate 8 97

def longFile (name : UInt8) : File := ⟨pathName longRoot [name], ascii ['b', 'y', ' ']⟩

def longPaths (first second : UInt8) : Dir :=
  .file [first] (ascii ['b', 'y', ' ']) (.file [second] (ascii ['b', 'y', ' ']) .nil)

def fileEntry (f : File) : Entry := ⟨f.path, .file f.contents⟩

theorem handleFileEntries (handleSubDir : Bytes → Dir → Crawl → Run Crawl) (files : List File) (s : Crawl) :
    (files.map fileEntry).foldlM (handleEntry handleSubDir) s = files.foldlM handleFile s := by
  rw [List.foldlM_map]
  rfl

theorem longPaths_run (first second : UInt8)
    (hsort : alphasort (fileEntry (longFile second)) (fileEntry (longFile first)) = 0)
    (hrun : (do
      let docTable ← DocTable.allocate
      let index ← MemIndex.allocate
      let s ← [longFile first, longFile second].foldlM handleFile ⟨docTable, index⟩
      s.docTable.getDocName 1 : Run (Option Bytes)) = .ok (some (longFile first).path))
    (hdots : isDots [first] = false ∧ isDots [second] = false) :
    ∃ s, crawlFileTree (mergeSorter _) longRoot (some (.dir (longPaths first second))) = .ok (some s) ∧
      s.docTable.getDocName 1 = .ok (some (longFile first).path) := by
  obtain ⟨docTable, hdocs, h⟩ := Run.bind_eq_ok.mp hrun
  obtain ⟨index, hindex, h⟩ := Run.bind_eq_ok.mp h
  obtain ⟨s, hs, h⟩ := Run.bind_eq_ok.mp h
  have hpass : firstPass longRoot 0 (longPaths first second) = [longFile first, longFile second].map fileEntry := by
    simp [longPaths, firstPass, MAX_NUM_DIR_ENTRIES, hdots.1, hdots.2, longFile, fileEntry]
  have hkept : (mergeSorter fun e1 e2 => decide (alphasort e1 e2 < 0)).sort
      ([longFile first, longFile second].map fileEntry) = [longFile first, longFile second].map fileEntry := by
    apply List.mergeSort_of_pairwise
    simp [hsort]
  have hdir : handleDir (mergeSorter _) ((longPaths first second).depth + 1) longRoot (longPaths first second)
      ⟨docTable, index⟩ = .ok s := by
    unfold handleDir
    rw [hpass, hkept, handleFileEntries, hs]
  exact ⟨s, by simp only [crawlFileTree, hdocs, hindex, Run.ok_bind, hdir, Run.pure_eq_ok], h⟩

/-- Paths that agree in their first 1024 bytes keep the order they come in. -/
theorem longPaths_dependent :
    ¬OrderIndependent (mergeSorter _) longRoot (longPaths 120 121) (longPaths 121 120) := by
  obtain ⟨s, hs, hname⟩ := longPaths_run 120 121 (by decide +kernel) (by decide +kernel) (by decide)
  obtain ⟨s', hs', hname'⟩ := longPaths_run 121 120 (by decide +kernel) (by decide +kernel)
    (by decide)
  intro hsame
  have hdoc := (hsame s s' hs hs').1 1
  rw [hname, hname'] at hdoc
  have hpath : (longFile 120).path ≠ (longFile 121).path := by decide +kernel
  exact hpath (Option.some.inj (Except.ok.inj hdoc))

theorem order_dependent :
    (Reordered (textFirst 512) (textLast 512) ∧ (textFirst 512).Valid 513 ∧
      ¬OrderIndependent (mergeSorter _) (ascii ['.']) (textFirst 512) (textLast 512)) ∧
    Reordered (longPaths 120 121) (longPaths 121 120) ∧ (longPaths 120 121).Valid 512 ∧
      ¬OrderIndependent (mergeSorter _) longRoot (longPaths 120 121) (longPaths 121 120) := by
  refine ⟨⟨binaries_reordered 512 .nil, textFirst_valid rfl, overfull_dependent _ rfl⟩, ?_, by decide,
    longPaths_dependent⟩
  exact .swap (.file [120] _) (.file [121] _) .nil

end CrawlFileTree

end SearchEngine
