import SearchEngine.FileParser
import SearchEngine.Library.Runs
import SearchEngine.QueryAgreement

/-! The shell that answers queries from an index in memory. -/

namespace SearchEngine.SearchShell

open QueryProcessor Runs

def BUFFER_SIZE : Nat := 1024

def MAX_QUERY_WORDS : Nat := 128

def readLine : Nat → Bytes → Bytes × Bytes × Bool
  | 0, stdin => ([], stdin, false)
  | _ + 1, [] => ([], [], true)
  | room + 1, b :: stdin =>
      if b = 10 then ([b], stdin, false)
      else
        let (line, rest, eof) := readLine room stdin
        (b :: line, rest, eof)

/-- What fgets puts into the buffer before the terminator, what is left of the
input, and whether feof holds then. -/
def fgets (size : Nat) (stdin : Bytes) : Bytes × Bytes × Bool := readLine (size - 1) stdin

/-- The string in the buffer, without a newline at its end. -/
def removeNewline (buffer : Bytes) : Bytes :=
  let s := FileParser.cString buffer
  if s.getLast? = some 10 then s.dropLast else s

/-- The next token and the string behind it, where the delimiter that ends the
token was overwritten. -/
def strtokR (isDelim : UInt8 → Bool) (s : Bytes) : Option (Bytes × Bytes) :=
  let s := s.dropWhile isDelim
  if s = [] then none else some (s.takeWhile fun b => !isDelim b, (s.dropWhile fun b => !isDelim b).tail)

/-- The loop that stores the words, each behind the last. -/
def storeWords : Nat → Bytes → List Bytes → Run (List Bytes)
  | 0, _, _ => .error .outOfFuel
  | fuel + 1, saveptr, queryWords =>
      match strtokR (· == 32) saveptr with
      | none => return queryWords
      | some (word, saveptr) =>
          if queryWords.length < MAX_QUERY_WORDS then
            storeWords fuel saveptr (queryWords ++ [word.map FileParser.tolower])
          else .error .badAccess

def queryOfLine (buffer : Bytes) : Run (List Bytes) :=
  let s := removeNewline buffer
  storeWords (s.length + 1) s []

def printResults (results : List QueryResult) : Bytes :=
  results.flatMap fun sr => ascii "  ".toList ++ sr.documentName ++ ascii " (".toList ++
    ascii (Nat.toDigits 10 sr.rank.toNat) ++ ascii ")\n".toList

/-- What came of a session: the array of words of each round of the loop, what
was printed, and how it ended. -/
structure Session where
  queries : List (Run (List Bytes))
  output : Bytes
  outcome : Run Unit

/-- The first rounds of the loop. -/
def queryLoop (dt : DocTable) (mi : MemIndex) : Nat → Bytes → Session
  | 0, _ => ⟨[], [], .ok ()⟩
  | rounds + 1, stdin =>
      let prompt := ascii "enter query:\n".toList
      let (buffer, stdin, eof) := fgets BUFFER_SIZE stdin
      if eof then ⟨[], prompt ++ ascii "shutting down...\n".toList, .ok ()⟩
      else
        match queryOfLine buffer with
        | .error e => ⟨[.error e], prompt, .error e⟩
        | .ok queryWords =>
            match searchNamed dt mi queryWords with
            | .error e => ⟨[.ok queryWords], prompt, .error e⟩
            | .ok results =>
                let s := queryLoop dt mi rounds stdin
                { s with queries := .ok queryWords :: s.queries, output := prompt ++ printResults results ++ s.output }

/-- The words of a line in lower case, with blanks between them. -/
def wordsOf (buffer : Bytes) : List Bytes :=
  (runs (· == 32) (removeNewline buffer)).map fun word => word.map FileParser.tolower

theorem storeWords_eq (fuel : Nat) (s : Bytes) (hfuel : s.length < fuel) (queryWords : List Bytes)
    (hlen : queryWords.length ≤ MAX_QUERY_WORDS) :
    storeWords fuel s queryWords =
      if queryWords.length + (runs (· == 32) s).length ≤ MAX_QUERY_WORDS then
        .ok (queryWords ++ (runs (· == 32) s).map fun word => word.map FileParser.tolower)
      else .error .badAccess := by
  induction fuel generalizing s queryWords with
  | zero => exact absurd hfuel (Nat.not_lt_zero _)
  | succ fuel ih =>
      rw [storeWords, strtokR]
      by_cases hempty : s.dropWhile (· == 32) = []
      · rw [if_pos hempty, runs_eq_nil.mpr (List.dropWhile_eq_nil_iff.mp hempty), if_pos (by simpa using hlen)]
        simp
      · have hlt := length_scan_lt hempty
        rw [if_neg hempty, runs_scan hempty]
        dsimp only
        by_cases hroom : queryWords.length < MAX_QUERY_WORDS
        · rw [if_pos hroom, ih _ (by rw [List.length_tail]; omega) _ (by rw [List.length_append]; exact hroom),
            runs_tail (delim_after _)]
          simp only [List.length_append, List.length_cons, List.length_nil, List.map_cons, List.append_assoc,
            List.singleton_append]
          rw [Nat.zero_add, Nat.add_right_comm, Nat.add_assoc]
        · rw [if_neg hroom, if_neg (by rw [List.length_cons]; omega)]

theorem queryOfLine_eq (buffer : Bytes) : queryOfLine buffer =
    if (wordsOf buffer).length ≤ MAX_QUERY_WORDS then .ok (wordsOf buffer) else .error .badAccess := by
  rw [queryOfLine, storeWords_eq _ _ (Nat.lt_succ_self _) [] (Nat.zero_le _), List.length_nil, Nat.zero_add, wordsOf,
    List.length_map]
  rfl

/-- The words of a round were stored within the array, and no more of them
were passed on than it has room for. -/
def InArray (query : Run (List Bytes)) : Prop := ∃ words, query = .ok words ∧ words.length ≤ MAX_QUERY_WORDS

/-- The lines that the first rounds of the loop get to read, if they are not
cut short. -/
def linesRead : Nat → Bytes → List Bytes
  | 0, _ => []
  | rounds + 1, stdin =>
      let (buffer, stdin, eof) := fgets BUFFER_SIZE stdin
      if eof then [] else buffer :: linesRead rounds stdin

theorem length_readLine (room : Nat) (stdin : Bytes) : (readLine room stdin).1.length ≤ room := by
  induction room generalizing stdin with
  | zero => exact Nat.le_refl 0
  | succ room ih =>
      cases stdin with
      | nil => exact Nat.zero_le _
      | cons b stdin =>
          rw [readLine]
          split
          · exact Nat.succ_le_succ (Nat.zero_le room)
          · exact Nat.succ_le_succ (ih stdin)

theorem length_removeNewline (buffer : Bytes) : (removeNewline buffer).length ≤ buffer.length := by
  have hle : (FileParser.cString buffer).length ≤ buffer.length := (List.takeWhile_prefix _).length_le
  rw [removeNewline]
  split
  · rw [List.length_dropLast]
    omega
  · exact hle

/-- The size of the buffer bounds the words of a line, at four times the size
of the array. -/
theorem length_wordsOf_le {rounds : Nat} {stdin line : Bytes} (h : line ∈ linesRead rounds stdin) :
    (wordsOf line).length ≤ 4 * MAX_QUERY_WORDS := by
  induction rounds generalizing stdin with
  | zero => cases h
  | succ rounds ih =>
      have hbuffer : (fgets BUFFER_SIZE stdin).1.length ≤ BUFFER_SIZE - 1 := length_readLine _ _
      rw [linesRead] at h
      generalize fgets BUFFER_SIZE stdin = out at h hbuffer
      obtain ⟨buffer, rest, eof⟩ := out
      cases eof with
      | true => cases h
      | false =>
          rcases List.mem_cons.mp h with rfl | hrest
          · have hwords := two_mul_length_runs_le (· == 32) (removeNewline line)
            have hline := length_removeNewline line
            replace hbuffer : line.length ≤ 1023 := hbuffer
            rw [wordsOf, List.length_map]
            unfold MAX_QUERY_WORDS
            omega
          · exact ih hrest

section

variable (dt : DocTable) (mi : MemIndex)

/-- A line has no more words than the array has room for, if the searches for
the lines before it all come to an end. -/
def FewWords (lines : List Bytes) : Prop :=
  ∀ before line after, lines = before ++ line :: after →
    (∀ l ∈ before, ∃ results, searchNamed dt mi (wordsOf l) = .ok results) → (wordsOf line).length ≤ MAX_QUERY_WORDS

end

variable {dt : DocTable} {mi : MemIndex}

theorem fewWords_cons {line : Bytes} {lines : List Bytes} : FewWords dt mi (line :: lines) ↔
    (wordsOf line).length ≤ MAX_QUERY_WORDS ∧
      ((∃ results, searchNamed dt mi (wordsOf line) = .ok results) → FewWords dt mi lines) := by
  constructor
  · intro h
    refine ⟨h [] line lines rfl (by simp), ?_⟩
    intro hends before l after hlines hbefore
    exact h (line :: before) l after (by rw [hlines]; rfl) (List.forall_mem_cons.mpr ⟨hends, hbefore⟩)
  · rintro ⟨hline, hrest⟩ before l after hlines hbefore
    cases before with
    | nil =>
        obtain ⟨rfl, _⟩ := List.cons.inj hlines
        exact hline
    | cons b before =>
        obtain ⟨rfl, htail⟩ := List.cons.inj hlines
        obtain ⟨hends, hbefore⟩ := List.forall_mem_cons.mp hbefore
        exact hrest hends before l after htail hbefore

theorem queryLoop_inArray_iff (rounds : Nat) (stdin : Bytes) :
    (∀ query ∈ (queryLoop dt mi rounds stdin).queries, InArray query) ↔ FewWords dt mi (linesRead rounds stdin) := by
  induction rounds generalizing stdin with
  | zero =>
      rw [queryLoop, linesRead]
      simp [FewWords]
  | succ rounds ih =>
      rw [queryLoop, linesRead]
      obtain ⟨buffer, rest, eof⟩ := fgets BUFFER_SIZE stdin
      cases eof with
      | true => simp [FewWords]
      | false =>
          simp only [Bool.false_eq_true, if_false]
          rw [fewWords_cons, ← ih rest, queryOfLine_eq]
          by_cases hlen : (wordsOf buffer).length ≤ MAX_QUERY_WORDS
          · have hline : InArray (.ok (wordsOf buffer)) := ⟨_, rfl, hlen⟩
            rw [if_pos hlen]
            cases hsearch : searchNamed dt mi (wordsOf buffer) with
            | error e => simp [hline, hlen, hsearch]
            | ok results => simp [hline, hlen, hsearch]
          · rw [if_neg hlen]
            refine iff_of_false (fun h => ?_) fun h => hlen h.1
            obtain ⟨words, hwords, _⟩ := h _ List.mem_cons_self
            cases hwords

theorem stays_in_array_iff (dt : DocTable) (mi : MemIndex) (stdin : Bytes) :
    (∀ rounds, ∀ query ∈ (queryLoop dt mi rounds stdin).queries, InArray query) ↔
      ∀ rounds, FewWords dt mi (linesRead rounds stdin) :=
  forall_congr' fun rounds => queryLoop_inArray_iff rounds stdin

def longLine : Bytes := (List.replicate 129 [97, 32]).flatten ++ [10]

/-- The buffer has room for 129 words, and the array has not. -/
theorem not_always_in_array : ¬∀ (dt : DocTable) (mi : MemIndex) (stdin : Bytes) (rounds : Nat),
    ∀ query ∈ (queryLoop dt mi rounds stdin).queries, InArray query := by
  intro h
  obtain ⟨x, _, _⟩ := indexedFile_small
  have hfew := (queryLoop_inArray_iff 1 longLine).mp (h x.dt x.mi longLine 1)
  have hlen := hfew [] longLine [] (by decide +kernel) (by simp)
  exact absurd hlen (by decide +kernel)

end SearchEngine.SearchShell
