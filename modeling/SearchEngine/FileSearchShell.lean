import SearchEngine.Library.Runs
import SearchEngine.ProcessRequest
import SearchEngine.ReaderOwnership

/-! The shell that answers queries from index files, line by line. -/

namespace SearchEngine.FileSearchShell

open QueryProcessor ReaderOwnership Runs

/-- std::getline: the line, the rest of the input, and whether the input ended
before a newline. -/
def getline : Bytes → Bytes × Bytes × Bool
  | [] => ([], [], true)
  | b :: input =>
      if b = 10 then ([], input, false)
      else
        let (line, rest, eof) := getline input
        (b :: line, rest, eof)

/-- The operator>> of a string stream, which fails when no word is left. -/
def extract (iss : Bytes) : Option (Bytes × Bytes) :=
  let iss := iss.dropWhile Boost.isSpace
  if iss = [] then none
  else some (iss.takeWhile fun b => !Boost.isSpace b, iss.dropWhile fun b => !Boost.isSpace b)

def extractWords : Nat → Bytes → Run (List Bytes)
  | 0, _ => .error .outOfFuel
  | fuel + 1, iss =>
      match extract iss with
      | none => return []
      | some (word, iss) => do
          let query ← extractWords fuel iss
          return word :: query

/-- The query that the shell makes of a line. -/
def queryOfLine (input : Bytes) : Run (List Bytes) :=
  extractWords (input.length + 1) (Boost.toLower input)

def printQuery (result : List QueryResult) : Bytes :=
  (if result.length = 0 then ascii "  [no results]\n".toList else []) ++
    result.flatMap fun el => ascii "  ".toList ++ el.documentName ++ ascii " (".toList ++
      HttpServer.decimalOf el.rank ++ ascii ")\n".toList

/-- What came of a session: the queries that ProcessQuery was called with, what
was printed, how it ended, and what of the input was left. -/
structure Session where
  calls : List (List Bytes)
  output : Bytes
  outcome : Run Unit
  rest : Bytes

def queryLoop (sorter : Sorter QueryResult.less) (descriptors : Nat) : Nat → Processor → Bytes → Session
  | 0, _, input => ⟨[], [], .error .outOfFuel, input⟩
  | fuel + 1, qp, input =>
      let prompt := ascii "Enter query: \n".toList
      let (line, rest, eof) := getline input
      if eof then ⟨[], prompt, .ok (), rest⟩
      else
        match queryOfLine line with
        | .error e => ⟨[], prompt, .error e, rest⟩
        | .ok query =>
            match ReaderOwnership.processQuery sorter descriptors qp query with
            | .error e => ⟨[query], prompt, .error e, rest⟩
            | .ok (qp, result) =>
                let s := queryLoop sorter descriptors fuel qp rest
                { s with calls := query :: s.calls, output := prompt ++ printQuery result ++ s.output }

/-- The program for the index files of its arguments, of which there is one,
and the number of the descriptors that it may have open for them. Two are of
the readers of each, and while these are made one more is of the file. -/
def main (sorter : Sorter QueryResult.less) (descriptors : Nat) (indexList : List OpenFile) (input : Bytes) : Session :=
  match new indexList true with
  | .error e => ⟨[], [], .error e, input⟩
  | .ok qp =>
      if descriptors < 2 * indexList.length + 1 then ⟨[], [], .error .verify333, input⟩
      else queryLoop sorter (descriptors - 2 * indexList.length) (input.length + 1) ⟨qp.readers, .empty⟩ input

theorem getline_newline {line : Bytes} (h : 10 ∉ line) (rest : Bytes) :
    getline (line ++ 10 :: rest) = (line, rest, false) := by
  induction line with
  | nil => rfl
  | cons b line ih =>
      have hb := List.ne_of_not_mem_cons h
      have hline := List.not_mem_of_not_mem_cons h
      rw [List.cons_append, getline, if_neg (Ne.symm hb), ih hline]

theorem getline_eof {line : Bytes} (h : 10 ∉ line) : getline line = (line, [], true) := by
  induction line with
  | nil => rfl
  | cons b line ih =>
      have hb := List.ne_of_not_mem_cons h
      have hline := List.not_mem_of_not_mem_cons h
      rw [getline, if_neg (Ne.symm hb), ih hline]

theorem extractWords_eq (fuel : Nat) (s : Bytes) (hfuel : s.length < fuel) :
    extractWords fuel s = .ok (runs Boost.isSpace s) := by
  induction fuel generalizing s with
  | zero => exact absurd hfuel (Nat.not_lt_zero _)
  | succ fuel ih =>
      rw [extractWords, extract]
      by_cases hempty : s.dropWhile Boost.isSpace = []
      · rw [if_pos hempty, runs_eq_nil.mpr (List.dropWhile_eq_nil_iff.mp hempty)]
        rfl
      · have hlt := length_scan_lt hempty
        rw [if_neg hempty, runs_scan hempty]
        dsimp only
        rw [ih _ (by omega)]
        rfl

/-- The words of a line in lower case, with white space between them. -/
def wordsOf (line : Bytes) : List Bytes := runs Boost.isSpace (Boost.toLower line)

theorem isSpace_of_lt {b : UInt8} (h : 32 < b.toNat) : Boost.isSpace b = false := by
  have hne : b ≠ 32 := by
    rintro rfl
    exact absurd h (Nat.lt_irrefl 32)
  have hlt : 13 < b := UInt8.lt_iff_toNat_lt.mpr (Nat.lt_trans (show 13 < 32 by decide) h)
  simp [Boost.isSpace, hne, hlt]

/-- No letter turns into white space. -/
theorem lower_letter {b : UInt8} (h : (65 ≤ b && b ≤ 90) = true) : 32 < b.toNat ∧ 32 < (b + 32).toNat := by
  obtain ⟨hlow, hhigh⟩ : 65 ≤ b.toNat ∧ b.toNat ≤ 90 := by simpa [UInt8.le_iff_toNat_le] using h
  have hsum : (b + 32).toNat = (b.toNat + 32) % 256 := UInt8.toNat_add b 32
  constructor <;> omega

theorem isSpace_lower (b : UInt8) : Boost.isSpace (if 65 ≤ b && b ≤ 90 then b + 32 else b) = Boost.isSpace b := by
  split
  · next h =>
    obtain ⟨hb, hlower⟩ := lower_letter h
    rw [isSpace_of_lt hb, isSpace_of_lt hlower]
  · rfl

theorem queryOfLine_eq (line : Bytes) : queryOfLine line = .ok (wordsOf line) :=
  extractWords_eq _ _ (by simp [Boost.toLower])

def nonBlank (line : Bytes) : Bool := line.any fun b => !Boost.isSpace b

theorem nonBlank_eq_true {line : Bytes} : nonBlank line = true ↔ ∃ b ∈ line, Boost.isSpace b = false := by
  simp [nonBlank]

theorem wordsOf_eq_nil {line : Bytes} : wordsOf line = [] ↔ nonBlank line = false := by
  rw [wordsOf, runs_eq_nil, Boost.toLower, List.forall_mem_map]
  simp only [isSpace_lower]
  simp [nonBlank]

variable {sorter : Sorter QueryResult.less} {descriptors live : Nat} {indices : List IndexedFile}

/-- Each line that is not blank was answered, the last one included, and then
the shell ended. -/
structure Answers (input : Bytes) (s : Session) : Prop where
  calls : s.calls = ((input.splitOn 10).filter nonBlank).map wordsOf
  outcome : s.outcome = .ok ()
  rest : s.rest = []

/-- The lines that a newline ends. -/
def endedLines (input : Bytes) : List Bytes := (input.splitOn 10).dropLast

/-- No line is blank, a newline ends the last one, no sum of ranks overflows,
and the descriptors suffice for the readers, of which so many are left from
before. -/
structure Answerable (indices : List IndexedFile) (descriptors live : Nat) (input : Bytes) : Prop where
  lines : ∀ line ∈ endedLines input, nonBlank line = true
  fits : ∀ line ∈ endedLines input, ∀ x ∈ indices, SumsFit x.mi.stored (wordsOf line)
  room : Quota.Within Search.opens Search.leaves descriptors live (searches indices ((endedLines input).map wordsOf))
  ended : ∀ line ∈ (input.splitOn 10).getLast?, nonBlank line = false

theorem splitOn_line {line : Bytes} (h : 10 ∉ line) (rest : Bytes) :
    (line ++ 10 :: rest).splitOn 10 = line :: rest.splitOn 10 :=
  List.splitOn_append_cons_self_of_not_mem h rest

theorem endedLines_line {line : Bytes} (h : 10 ∉ line) (rest : Bytes) :
    endedLines (line ++ 10 :: rest) = line :: endedLines rest := by
  rw [endedLines, splitOn_line h, List.dropLast_cons_of_ne_nil (List.splitOn_ne_nil 10 rest)]
  rfl

theorem endedLines_eof {line : Bytes} (h : 10 ∉ line) : endedLines line = [] := by
  rw [endedLines, List.splitOn_eq_singleton h]
  rfl

theorem answerable_eof {line : Bytes} (h : 10 ∉ line) :
    Answerable indices descriptors live line ↔ nonBlank line = false := by
  have hlines := endedLines_eof h
  have hsplit : line.splitOn 10 = [line] := List.splitOn_eq_singleton h
  constructor
  · intro hans
    exact hans.ended line (by rw [hsplit]; rfl)
  · intro hblank
    constructor
    · simp [hlines]
    · simp [hlines]
    · rw [hlines]
      trivial
    · simpa [hsplit] using hblank

theorem answerable_line {line : Bytes} (h : 10 ∉ line) (rest : Bytes) :
    Answerable indices descriptors live (line ++ 10 :: rest) ↔ nonBlank line = true ∧
      ((∀ x ∈ indices, SumsFit x.mi.stored (wordsOf line)) ∧
        Quota.Within Search.opens Search.leaves descriptors live (indices.map (search (wordsOf line)))) ∧
      Answerable indices descriptors (live + ((indices.map (search (wordsOf line))).map Search.leaves).sum) rest := by
  have hlines := endedLines_line h rest
  have hlast : ((line ++ 10 :: rest).splitOn 10).getLast? = (rest.splitOn 10).getLast? := by
    rw [splitOn_line h, List.getLast?_cons_of_ne_nil (List.splitOn_ne_nil 10 rest)]
  have hroom : Quota.Within Search.opens Search.leaves descriptors live
      (searches indices ((endedLines (line ++ 10 :: rest)).map wordsOf)) ↔
        Quota.Within Search.opens Search.leaves descriptors live (indices.map (search (wordsOf line))) ∧
        Quota.Within Search.opens Search.leaves descriptors
          (live + ((indices.map (search (wordsOf line))).map Search.leaves).sum)
          (searches indices ((endedLines rest).map wordsOf)) := by
    rw [hlines, List.map_cons, searches, List.flatMap_cons]
    exact Quota.within_append _ _ live
  constructor
  · rintro ⟨hnonBlank, hfits, hwithin, hended⟩
    rw [hlines, List.forall_mem_cons] at hnonBlank hfits
    rw [hlast] at hended
    obtain ⟨hfirst, hrest⟩ := hroom.mp hwithin
    exact ⟨hnonBlank.1, ⟨hfits.1, hfirst⟩, hnonBlank.2, hfits.2, hrest, hended⟩
  · rintro ⟨hline, ⟨hfit, hfirst⟩, hnonBlank, hfits, hrest, hended⟩
    constructor
    · rw [hlines]
      exact List.forall_mem_cons.mpr ⟨hline, hnonBlank⟩
    · rw [hlines]
      exact List.forall_mem_cons.mpr ⟨hfit, hfits⟩
    · exact hroom.mpr ⟨hfirst, hrest⟩
    · rw [hlast]
      exact hended

theorem answers_eof {line : Bytes} (h : 10 ∉ line) {output : Bytes} :
    Answers line ⟨[], output, .ok (), []⟩ ↔ nonBlank line = false := by
  have hsplit : line.splitOn 10 = [line] := List.splitOn_eq_singleton h
  constructor
  · rintro ⟨hcalls, _, _⟩
    simpa [hsplit] using hcalls
  · intro hblank
    refine ⟨?_, rfl, rfl⟩
    simp [hsplit, hblank]

theorem answers_line {line : Bytes} (h : 10 ∉ line) (hline : nonBlank line = true) (rest : Bytes) (s : Session)
    (output : Bytes) :
    Answers (line ++ 10 :: rest) { s with calls := wordsOf line :: s.calls, output := output } ↔ Answers rest s := by
  have hfilter : ((line ++ 10 :: rest).splitOn 10).filter nonBlank = line :: (rest.splitOn 10).filter nonBlank := by
    rw [splitOn_line h, List.filter_cons_of_pos hline]
  constructor
  · rintro ⟨hcalls, houtcome, hrest⟩
    rw [hfilter, List.map_cons, List.cons.injEq] at hcalls
    exact ⟨hcalls.2, houtcome, hrest⟩
  · rintro ⟨hcalls, houtcome, hrest⟩
    refine ⟨?_, houtcome, hrest⟩
    rw [hfilter, List.map_cons, ← hcalls]

theorem not_answers {input : Bytes} {s : Session} {e : Fault} (h : s.outcome = .error e) : ¬Answers input s := by
  rintro ⟨_, houtcome, _⟩
  rw [h] at houtcome
  cases houtcome

/-- The loop, line by line: a blank line, an overflow and a lack of descriptors
end it early. -/
theorem queryLoop_answers_iff (fuel : Nat) (input : Bytes) (hfuel : input.length < fuel) {qp : Processor}
    (hready : Ready indices live qp) :
    Answers input (queryLoop sorter descriptors fuel qp input) ↔ Answerable indices descriptors live input := by
  induction fuel generalizing input qp live with
  | zero => exact absurd hfuel (Nat.not_lt_zero _)
  | succ fuel ih =>
      by_cases hnewline : 10 ∈ input
      · obtain ⟨line, rest, rfl, hline⟩ := List.eq_append_cons_of_mem hnewline
        rw [List.length_append, List.length_cons] at hfuel
        rw [answerable_line hline, queryLoop, getline_newline hline]
        simp only [queryOfLine_eq, Bool.false_eq_true, if_false]
        cases hblank : nonBlank line with
        | false =>
            rw [wordsOf_eq_nil.mpr hblank]
            exact iff_of_false (not_answers (e := .verify333) rfl) (by simp)
        | true =>
            have hquery : wordsOf line ≠ [] := by
              intro hempty
              rw [wordsOf_eq_nil, hblank] at hempty
              cases hempty
            rcases ReaderOwnership.processQuery_ends sorter descriptors hready hquery with
              ⟨hyes, qp', results, _, hrun, _, hready'⟩ | ⟨hno, e, hrun⟩
            · rw [hrun]
              have hrest := ih rest (by omega) hready'
              rw [← answers_line hline hblank rest (queryLoop sorter descriptors fuel qp' rest)] at hrest
              rw [hrest]
              exact ⟨fun h => ⟨rfl, hyes, h⟩, fun h => h.2.2⟩
            · rw [hrun]
              exact iff_of_false (not_answers (e := e) rfl) fun h => hno h.2.1
      · rw [queryLoop, getline_eof hnewline, answerable_eof hnewline]
        exact answers_eof hnewline

theorem answers_every_line_iff (sorter : Sorter QueryResult.less) (descriptors : Nat) (hindices : indices ≠ [])
    (input : Bytes) :
    Answers input (main sorter descriptors (indices.map IndexedFile.file) input) ↔
      2 * indices.length + 1 ≤ descriptors ∧
        Answerable indices (descriptors - 2 * indices.length) 0 input := by
  obtain ⟨qp, hnew, hserves⟩ := new_serves true hindices
  rw [main, hnew, List.length_map]
  dsimp only
  split
  · next hfew =>
    exact iff_of_false (not_answers (e := .verify333) rfl) fun h => absurd hfew (Nat.not_lt.mpr h.1)
  · next hopen =>
    rw [queryLoop_answers_iff (input.length + 1) input (Nat.lt_succ_self _) (ready_new hserves)]
    exact ⟨fun h => ⟨Nat.not_lt.mp hopen, h⟩, fun h => h.2⟩

theorem answers_every_line_small : ∃ x : IndexedFile, x.names = smallNames ∧ x.adds = smallAdds ∧
    Answers (ascii "A\n a A\n".toList) (main (mergeSorter _) 1000 [x.file] (ascii "A\n a A\n".toList)) := by
  obtain ⟨x, hnames, hadds⟩ := indexedFile_small
  have hlines : endedLines (ascii "A\n a A\n".toList) = [ascii ['A'], ascii " a A".toList] := by decide
  have hwords : ∀ line ∈ endedLines (ascii "A\n a A\n".toList),
      (∀ w ∈ wordsOf line, w = ascii ['a']) ∧ (wordsOf line).length ≤ 2 := by decide
  refine ⟨x, hnames, hadds, (answers_every_line_iff (mergeSorter _) 1000 (List.cons_ne_nil x []) _).mpr ⟨by simp, ?_⟩⟩
  constructor
  · decide
  · intro line hline y hy
    obtain rfl : y = x := by simpa using hy
    intro q hq docId r hr
    obtain ⟨hall, hlen⟩ := hwords line hline
    exact small_sums_fit hadds hall hlen q hq docId r (IndexedFile.queryRank_of_rankOf hr)
  · rw [hlines]
    exact Quota.within_of_length Search.opens_le Search.leaves_le (by simp [searches])
  · decide

/-- A blank line ends the shell. -/
theorem not_every_line_answered : ¬∀ (sorter : Sorter QueryResult.less) (indices : List IndexedFile) (input : Bytes),
    indices ≠ [] → Answers input (main sorter 1000 (indices.map IndexedFile.file) input) := by
  intro h
  obtain ⟨x, _, _⟩ := indexedFile_small
  obtain ⟨qp, hnew, hserves⟩ := new_serves true (List.cons_ne_nil x [])
  have hans := h (mergeSorter _) [x] [10] (List.cons_ne_nil x [])
  rw [main, hnew] at hans
  have hloop : Answers [10] (queryLoop (mergeSorter _) 998 2 ⟨qp.readers, .empty⟩ [10]) := hans
  have hlines := ((queryLoop_answers_iff 2 [10] (by decide) (ready_new hserves)).mp hloop).lines [] (by decide)
  exact absurd hlines (by decide)

end SearchEngine.FileSearchShell
