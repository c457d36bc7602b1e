import SearchEngine.DocTable
import SearchEngine.FileParser
import SearchEngine.FileTree
import SearchEngine.MemIndex
import SearchEngine.Library.Sorter
import Mathlib.Data.List.Flatten
import Mathlib.Data.List.Perm.Subperm

namespace SearchEngine

namespace CrawlFileTree

open Dir FileParser

def MAX_NUM_DIR_ENTRIES : Nat := 512

def MAX_PATHNAME_LENGTH : Nat := 1024

structure Entry where
  pathName : Bytes
  target : Target

/-- A string is followed by a zero byte, at which the comparison ends. -/
def strncmp : Nat → Bytes → Bytes → Int
  | 0, _, _ => 0
  | n + 1, as, bs =>
      if as.headD 0 ≠ bs.headD 0 then ((as.headD 0).toNat : Int) - (bs.headD 0).toNat
      else if as.headD 0 = 0 then 0
      else strncmp n as.tail bs.tail

def alphasort (e1 e2 : Entry) : Int := strncmp MAX_PATHNAME_LENGTH e1.pathName e2.pathName

/-- The first pass over a directory of which so many entries are recorded. -/
def firstPass (dirPath : Bytes) (i : Nat) : Dir → List Entry
  | .nil => []
  | .dots rest => if i < MAX_NUM_DIR_ENTRIES then firstPass dirPath i rest else []
  | .file name contents rest =>
      if i < MAX_NUM_DIR_ENTRIES then
        if isDots name then firstPass dirPath i rest
        else ⟨pathName dirPath name, .file contents⟩ :: firstPass dirPath (i + 1) rest
      else []
  | .sub name dir rest =>
      if i < MAX_NUM_DIR_ENTRIES then
        if isDots name then firstPass dirPath i rest
        else ⟨pathName dirPath name, .dir dir⟩ :: firstPass dirPath (i + 1) rest
      else []

structure Crawl where
  docTable : DocTable
  index : MemIndex

/-- ReadFileToString on a file that can be read: the buffer is cut at the size
that comes back as an int. -/
def readFileToString (contents : Bytes) : Run (Bytes × Int) :=
  let size := toInt contents.length
  if size < 0 then .error .badAccess else .ok (contents.take size.toNat, size)

def moveWords (docId : DocID) : Nat → WordTable → HTIterator → MemIndex → Run MemIndex
  | 0, _, _, _ => .error .outOfFuel
  | fuel + 1, tab, it, index => do
      if ← HTIterator.isValid tab it then
        match ← HTIterator.remove tab it with
        | (_, _, none) => .error .verify333
        | (tab, it, some kv) =>
            let index ← index.addPostingList kv.value.word docId kv.value.positions
            moveWords docId fuel tab it index
      else return index

def handleFile (s : Crawl) (file : File) : Run Crawl := do
  let (fileBuf, fileLen) ← readFileToString file.contents
  verify333 (0 < fileLen)
  match ← parseIntoWordPositionsTable fileBuf with
  | none => return s
  | some tab =>
      let (docTable, docId) ← s.docTable.add file.path
      let it ← HTIterator.allocate tab
      let index ← moveWords docId (tab.numElements + 1) tab it s.index
      return ⟨docTable, index⟩

def handleEntry (handleSubDir : Bytes → Dir → Crawl → Run Crawl) (s : Crawl) (e : Entry) : Run Crawl :=
  match e.target with
  | .file contents => handleFile s ⟨e.pathName, contents⟩
  | .dir subDir => handleSubDir e.pathName subDir s

variable (qsort : Sorter fun e1 e2 => alphasort e1 e2 < 0)

/-- The first argument bounds the depth of the recursion. -/
def handleDir : Nat → Bytes → Dir → Crawl → Run Crawl
  | 0, _, _, _ => .error .outOfFuel
  | depth + 1, dirPath, d, s => (qsort.sort (firstPass dirPath 0 d)).foldlM (handleEntry (handleDir depth)) s

/-- The root is what stat finds under its path, if anything. The result is
none where the code returns false. -/
def crawlFileTree (rootDir : Bytes) (root : Option Target) : Run (Option Crawl) :=
  match root with
  | none => .ok none
  | some (.file _) => .ok none
  | some (.dir d) => do
      let docTable ← DocTable.allocate
      let index ← MemIndex.allocate
      let s ← handleDir qsort (d.depth + 1) rootDir d ⟨docTable, index⟩
      return some s

theorem firstPass_eq (dirPath : Bytes) (i : Nat) (d : Dir) (hproper : ∀ name ∈ d.names, ProperName name)
    (hsmall : i + d.names.length ≤ MAX_NUM_DIR_ENTRIES) :
    firstPass dirPath i d = d.entries.map fun e => ⟨pathName dirPath e.1, e.2⟩ := by
  induction d generalizing i with
  | nil => rfl
  | dots rest ih =>
      unfold firstPass
      split
      · exact ih i hproper hsmall
      · next hfull =>
        have hnil : rest.names = [] := by
          apply List.eq_nil_of_length_eq_zero
          simp only [names] at hsmall
          omega
        rw [names_eq, List.map_eq_nil_iff] at hnil
        simp [entries, hnil]
  | file name contents rest ih =>
      simp only [names, List.mem_cons, List.length_cons] at hproper hsmall
      unfold firstPass
      rw [if_pos (by omega), if_neg (by simp [(hproper name (.inl rfl)).notDots])]
      rw [ih (i + 1) (fun n hn => hproper n (.inr hn)) (by omega)]
      rfl
  | sub name dir rest _ ih =>
      simp only [names, List.mem_cons, List.length_cons] at hproper hsmall
      unfold firstPass
      rw [if_pos (by omega), if_neg (by simp [(hproper name (.inl rfl)).notDots])]
      rw [ih (i + 1) (fun n hn => hproper n (.inr hn)) (by omega)]
      rfl

/-- The files an entry stands for, where filesOf gives those of a directory. -/
def entryFiles (filesOf : Bytes → Dir → List File) (e : Entry) : List File :=
  match e.target with
  | .file contents => [⟨e.pathName, contents⟩]
  | .dir d => filesOf e.pathName d

/-- The files of the second passes, in their order. -/
def visited : Nat → Bytes → Dir → List File
  | 0, _, _ => []
  | depth + 1, dirPath, d => (qsort.sort (firstPass dirPath 0 d)).flatMap (entryFiles (visited depth))

theorem handleEntry_file (handleSubDir : Bytes → Dir → Crawl → Run Crawl) (path contents : Bytes) (s : Crawl) :
    handleEntry handleSubDir s ⟨path, .file contents⟩ = [⟨path, contents⟩].foldlM handleFile s := by
  simp only [List.foldlM_cons, List.foldlM_nil, bind_pure]
  rfl

theorem firstPass_sublist (dirPath : Bytes) (i : Nat) (d : Dir) :
    (firstPass dirPath i d).Sublist (d.entries.map fun e => ⟨pathName dirPath e.1, e.2⟩) := by
  induction d generalizing i with
  | nil => exact .refl []
  | dots rest ih =>
      unfold firstPass
      split
      · exact ih i
      · exact List.nil_sublist _
  | file name contents rest ih =>
      unfold firstPass
      split
      · split
        · exact (ih i).cons _
        · exact (ih (i + 1)).cons_cons _
      · exact List.nil_sublist _
  | sub name dir rest _ ih =>
      unfold firstPass
      split
      · split
        · exact (ih i).cons _
        · exact (ih (i + 1)).cons_cons _
      · exact List.nil_sublist _

theorem depth_of_sorted {dirPath : Bytes} {d : Dir} {e : Entry} (he : e ∈ qsort.sort (firstPass dirPath 0 d))
    {subDir : Dir} (ht : e.target = .dir subDir) : subDir.depth < d.depth := by
  have hmem := (firstPass_sublist dirPath 0 d).subset ((qsort.perm _).mem_iff.mp he)
  obtain ⟨⟨name, t⟩, hentry, rfl⟩ := List.mem_map.mp hmem
  obtain rfl : t = .dir subDir := ht
  exact depth_of_mem hentry

theorem handleEntries_eq {handle : Crawl → Entry → Run Crawl} {filesOf : Entry → List File} (es : List Entry)
    (h : ∀ e ∈ es, ∀ s, handle s e = (filesOf e).foldlM handleFile s) (s : Crawl) :
    es.foldlM handle s = (es.flatMap filesOf).foldlM handleFile s := by
  induction es generalizing s with
  | nil => rfl
  | cons e es ih =>
      rw [List.foldlM_cons, List.flatMap_cons, List.foldlM_append, h e (by simp)]
      congr 1
      funext s'
      exact ih (fun e he => h e (by simp [he])) s'

/-- The recursion hands the files to HandleFile one after the other. -/
theorem handleDir_eq (depth : Nat) (dirPath : Bytes) (d : Dir) (hdepth : d.depth < depth) (s : Crawl) :
    handleDir qsort depth dirPath d s = (visited qsort depth dirPath d).foldlM handleFile s := by
  induction depth generalizing dirPath d s with
  | zero => omega
  | succ depth ih =>
      refine handleEntries_eq (qsort.sort (firstPass dirPath 0 d)) ?_ s
      rintro ⟨path, t⟩ he s
      cases t with
      | file contents => exact handleEntry_file _ _ _ _
      | dir subDir =>
          have hlt := depth_of_sorted qsort he rfl
          exact ih path subDir (by omega) s

/-- In a tree that fits the crawl these are all its files. -/
theorem visited_perm (depth : Nat) (dirPath : Bytes) (d : Dir) (hdepth : d.depth < depth)
    (hd : d.Valid MAX_NUM_DIR_ENTRIES) : (visited qsort depth dirPath d).Perm (d.files dirPath) := by
  induction depth generalizing dirPath d with
  | zero => omega
  | succ depth ih =>
      have hperm := qsort.perm (firstPass dirPath 0 d)
      rw [firstPass_eq dirPath 0 d hd.1.proper (by simpa using hd.1.small)] at hperm
      unfold visited
      rw [firstPass_eq dirPath 0 d hd.1.proper (by simpa using hd.1.small), files_eq]
      refine (hperm.flatMap_right _).trans ?_
      rw [List.flatMap_map]
      refine List.Perm.flatMap_left _ ?_
      rintro ⟨name, t⟩ ht
      cases t with
      | file contents => exact .refl _
      | dir subDir => exact ih (pathName dirPath name) subDir (by have := depth_of_mem ht; omega) (hd.sub ht)

theorem subperm_flatMap {α β : Type} {f g : α → List β} (l : List α) (h : ∀ a ∈ l, (f a).Subperm (g a)) :
    (l.flatMap f).Subperm (l.flatMap g) := by
  induction l with
  | nil => exact .refl []
  | cons a l ih =>
      rw [List.flatMap_cons, List.flatMap_cons]
      exact (h a (by simp)).append (ih fun b hb => h b (by simp [hb]))

/-- What is visited of any tree, however large its directories are. -/
theorem visited_subperm (depth : Nat) (dirPath : Bytes) (d : Dir) (hdepth : d.depth < depth) :
    (visited qsort depth dirPath d).Subperm (d.files dirPath) := by
  induction depth generalizing dirPath d with
  | zero => omega
  | succ depth ih =>
      have hperm := qsort.perm (firstPass dirPath 0 d)
      have hentries : (visited qsort (depth + 1) dirPath d).Subperm
          ((qsort.sort (firstPass dirPath 0 d)).flatMap fun e : Entry => e.target.files e.pathName) := by
        apply subperm_flatMap
        rintro ⟨path, t⟩ he
        cases t with
        | file contents => exact .refl _
        | dir subDir =>
            have hlt := depth_of_sorted qsort he rfl
            exact ih path subDir (by omega)
      have hfiles := ((firstPass_sublist dirPath 0 d).flatMap fun e : Entry => e.target.files e.pathName).subperm
      rw [List.flatMap_map] at hfiles
      rw [files_eq]
      exact (hentries.trans (hperm.flatMap_right _).subperm).trans hfiles

theorem handleDir_order (depth : Nat) (dirPath : Bytes) (d : Dir) (hdepth : d.depth < depth)
    (hd : d.Valid MAX_NUM_DIR_ENTRIES) :
    ∃ order : List File, order.Perm (d.files dirPath) ∧
      ∀ s, handleDir qsort depth dirPath d s = order.foldlM handleFile s :=
  ⟨_, visited_perm qsort depth dirPath d hdepth hd, handleDir_eq qsort depth dirPath d hdepth⟩

theorem handleDir_visits (depth : Nat) (dirPath : Bytes) (d : Dir) (hdepth : d.depth < depth) :
    ∃ visited : List File, visited.Subperm (d.files dirPath) ∧
      ∀ s, handleDir qsort depth dirPath d s = visited.foldlM handleFile s :=
  ⟨_, visited_subperm qsort depth dirPath d hdepth, handleDir_eq qsort depth dirPath d hdepth⟩

def postingsOf (docId : DocID) (tab : WordTable) : List Posting :=
  tab.pairs.map fun kv => ⟨kv.value.word, docId, kv.value.positions⟩

open HTIterator in
theorem moveWords_eq (docId : DocID) (rest : List (HTKeyValue WordPositions)) (fuel : Nat)
    (hfuel : rest.length < fuel) (tab : WordTable) (it : HTIterator) (hit : Points tab it rest) (index : MemIndex) :
    moveWords docId fuel tab it index =
      index.addAll (rest.map fun kv => ⟨kv.value.word, docId, kv.value.positions⟩) := by
  induction rest generalizing fuel tab it index with
  | nil =>
      obtain ⟨fuel, rfl⟩ := Nat.exists_eq_succ_of_ne_zero (Nat.ne_of_gt hfuel)
      simp [moveWords, isValid_nil hit, MemIndex.addAll]
  | cons kv rest ih =>
      obtain ⟨fuel, rfl⟩ := Nat.exists_eq_succ_of_ne_zero (Nat.ne_of_gt (Nat.zero_lt_of_lt hfuel))
      obtain ⟨tab', it', hremove, hit', _⟩ := remove_cons hit
      simp only [moveWords, isValid_cons hit, Run.ok_bind, if_true, hremove, List.map_cons, MemIndex.addAll,
        List.foldlM_cons]
      congr 1
      funext index'
      exact ih fuel (by simpa using hfuel) tab' it' hit' index'

theorem readFileToString_eq {contents : Bytes} (hlen : contents.length < 2 ^ 31) :
    readFileToString contents = .ok (contents, contents.length) := by
  simp only [readFileToString, toInt_of_lt hlen, Int.toNat_natCast, List.take_length]
  rw [if_neg (by omega)]

theorem handleFile_eq (s : Crawl) (f : File) (hlen : f.contents.length < 2 ^ 31) :
    handleFile s f =
      if f.contents = [] then .error .verify333
      else do
        match ← parseIntoWordPositionsTable f.contents with
        | none => return s
        | some tab =>
            let (docTable, docId) ← s.docTable.add f.path
            let index ← s.index.addAll (postingsOf docId tab)
            return ⟨docTable, index⟩ := by
  simp only [handleFile, readFileToString_eq hlen, Run.ok_bind]
  by_cases hempty : f.contents = []
  · simp [hempty]
  · have hpos : 0 < f.contents.length := List.length_pos_of_ne_nil hempty
    have hcond : decide (0 < (f.contents.length : Int)) = true := decide_eq_true (by omega)
    rw [hcond, verify333_true, Run.ok_bind, if_neg hempty]
    apply bind_congr
    intro r
    cases r with
    | none => rfl
    | some tab =>
        obtain ⟨it, halloc, hit⟩ := HTIterator.allocate_spec tab
        dsimp only
        apply bind_congr
        intro added
        rw [halloc, Run.ok_bind, moveWords_eq added.2 tab.pairs _ (by rw [HashTable.length_pairs]; omega) tab it hit]
        rfl

end CrawlFileTree

end SearchEngine
