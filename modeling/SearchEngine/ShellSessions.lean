import SearchEngine.BuildFileIndex
import SearchEngine.SearchShell

/-! What the two shells print for the files of directory trees. -/

namespace SearchEngine

open QueryProcessor ReaderOwnership

namespace CrawlFileTree

open FileParser MemIndex

variable {s : Crawl} {order files : List File} {words query : List Bytes}

/-- A query in the index of these files. -/
noncomputable def searchIn (query : List Bytes) (files : List File) : Search where
  together words := decide (∃ f ∈ files, ∀ w ∈ words, 0 < occurrences f.contents w)
  query := query

theorem Describes.together_iff (h : Describes s order files) (hwords : words ≠ []) :
    (∃ docId, ContainsAll (postingsFrom (indexed order)) words docId) ↔
      (searchIn query files).together words = true := by
  rw [searchIn, decide_eq_true_iff]
  constructor
  · rintro ⟨docId, hall⟩
    obtain ⟨name, hname⟩ := h.registered hwords hall
    have hfound : ⟨name, (rankSum (postingsFrom (indexed order)) words docId : Nat)⟩ ∈ found files words :=
      (h.mem_found hwords).mp ⟨docId, hall, hname, rfl⟩
    obtain ⟨f, hf, _⟩ := List.mem_map.mp hfound
    obtain ⟨hmem, hall⟩ := List.mem_filter.mp hf
    exact ⟨f, hmem, of_decide_eq_true hall⟩
  · rintro ⟨f, hf, hall⟩
    have hfound : ⟨f.path, ((words.map (occurrences f.contents)).sum : Nat)⟩ ∈ found files words :=
      List.mem_map.mpr ⟨f, List.mem_filter.mpr ⟨hf, decide_eq_true hall⟩, rfl⟩
    obtain ⟨docId, hcontains, _⟩ := (h.mem_found hwords).mpr hfound
    exact ⟨docId, hcontains⟩

end CrawlFileTree

namespace BuildFileIndex.BuiltIndex

open CrawlFileTree OpenFile

/-- A query in the index files of these trees, one after the other. -/
noncomputable def searches (sites : List BuiltIndex) (queries : List (List Bytes)) : List Search :=
  queries.flatMap fun query => sites.map fun x => searchIn query x.files

end BuildFileIndex.BuiltIndex

open FileSearchShell (endedLines endedLines_line endedLines_eof)

/-- The output of a shell that prints these results, line by line, and then
comes to the end of its input. -/
def transcript (prompt : Bytes) (printed : List QueryResult → Bytes) (closing : Bytes)
    (answers : List (List QueryResult)) : Bytes :=
  answers.flatMap (fun results => prompt ++ printed results) ++ (prompt ++ closing)

theorem transcript_cons (prompt : Bytes) (printed : List QueryResult → Bytes) (closing : Bytes)
    (results : List QueryResult) (answers : List (List QueryResult)) :
    transcript prompt printed closing (results :: answers) =
      prompt ++ printed results ++ transcript prompt printed closing answers := by
  simp [transcript]

/-- A session that comes to the end of its input, and has printed what is
found for the words of each line. -/
structure Reports (prompt : Bytes) (printed : List QueryResult → Bytes) (closing : Bytes)
    (found : List Bytes → List QueryResult) (input : Bytes) (outcome : Run Unit) (output : Bytes) : Prop where
  ends : outcome = .ok ()
  listed : ∃ answers,
    List.Forall₂ (fun line => Ordered (found (FileSearchShell.wordsOf line))) (endedLines input) answers ∧
      output = transcript prompt printed closing answers

section

variable {prompt closing input output : Bytes} {printed : List QueryResult → Bytes}
  {found found' : List Bytes → List QueryResult} {outcome : Run Unit}

theorem Reports.congr (h : Reports prompt printed closing found input outcome output)
    (hsame : ∀ line ∈ endedLines input,
      (found (FileSearchShell.wordsOf line)).Perm (found' (FileSearchShell.wordsOf line))) :
    Reports prompt printed closing found' input outcome output := by
  obtain ⟨hends, answers, hall, houtput⟩ := h
  refine ⟨hends, answers, ?_, houtput⟩
  clear houtput
  generalize endedLines input = lines at hall hsame
  induction hall with
  | nil => exact .nil
  | cons hline _ ih =>
      obtain ⟨hfirst, hrest⟩ := List.forall_mem_cons.mp hsame
      exact .cons ⟨hline.same.trans hfirst, hline.descending⟩ (ih hrest)

theorem Reports.eof {line : Bytes} (h : 10 ∉ line) :
    Reports prompt printed closing found line (.ok ()) (prompt ++ closing) := by
  refine ⟨rfl, [], ?_, rfl⟩
  rw [endedLines_eof h]
  exact .nil

theorem Reports.line {line : Bytes} (h : 10 ∉ line) {results : List QueryResult}
    (hresults : Ordered (found (FileSearchShell.wordsOf line)) results)
    (hrest : Reports prompt printed closing found input outcome output) :
    Reports prompt printed closing found (line ++ 10 :: input) outcome (prompt ++ printed results ++ output) := by
  obtain ⟨hends, answers, hall, houtput⟩ := hrest
  refine ⟨hends, results :: answers, ?_, ?_⟩
  · rw [endedLines_line h]
    exact .cons hresults hall
  · rw [transcript_cons, ← houtput]

end

namespace FileSearchShell

def prompt : Bytes := ascii "Enter query: \n".toList

variable {sorter : Sorter QueryResult.less} {descriptors live : Nat} {indices : List IndexedFile}

section

open BuildFileIndex CrawlFileTree

variable {sites : List BuiltIndex} {qp : QueryProcessor}

end

end FileSearchShell

namespace SearchShell

open CrawlFileTree MemIndex

def prompt : Bytes := ascii "enter query:\n".toList

def closing : Bytes := ascii "shutting down...\n".toList

section

variable {s : Crawl} {order files : List File} {word : Bytes} {query : List Bytes}

/-- No word of the query has the hash of another word of the files. -/
def QueryFree (files : List File) (query : List Bytes) : Prop :=
  ∀ w ∈ query, ∀ u ∈ CrawlFileTree.wordsOf files, hashString w = hashString u → w = u

theorem QueryFree.collisionFree (hfree : QueryFree files query) (h : Describes s order files) :
    SearchEngine.CollisionFree (postingsFrom (indexed order)) query := by
  intro w hw a ha
  exact hfree w hw a.word ((wordsOf_perm h.perm).mem_iff.mp (word_mem h.small ha))

end

end SearchShell

namespace BuildFileIndex.BuiltIndex

open CrawlFileTree SearchShell

end BuildFileIndex.BuiltIndex

end SearchEngine
