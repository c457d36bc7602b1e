import SearchEngine.FileSearchShell

/-! The words that the server and the shell make of the same query text. -/

namespace SearchEngine

open Runs

namespace Boost

theorem split_eq_splitOnP (isDelim : UInt8 → Bool) (s : Bytes) : split isDelim s = s.splitOnP isDelim := by
  induction s with
  | nil => rfl
  | cons b s ih =>
      rw [split, List.splitOnP_cons_eq_if_modifyHead, ih]
      split
      · rfl
      · obtain ⟨token, tokens, hsplit⟩ := List.exists_cons_of_ne_nil (List.splitOnP_ne_nil isDelim s)
        rw [hsplit]
        rfl

theorem trimLeft_append {s : Bytes} (h : ∃ b ∈ s, isSpace b = false) (t : Bytes) :
    trimLeft (s ++ t) = trimLeft s ++ t := by
  have hne : s.dropWhile isSpace ≠ [] := by
    obtain ⟨b, hb, hspace⟩ := h
    intro hempty
    rw [List.dropWhile_eq_nil_iff.mp hempty b hb] at hspace
    cases hspace
  rw [trimLeft, List.dropWhile_append, if_neg (by simpa using hne)]
  rfl

theorem trimRight_append {t : Bytes} (h : ∃ b ∈ t, isSpace b = false) (s : Bytes) :
    trimRight (s ++ t) = s ++ trimRight t := by
  have hreverse := trimLeft_append (s := t.reverse) (by simpa using h) s.reverse
  rw [trimRight, List.reverse_append]
  change (trimLeft (t.reverse ++ s.reverse)).reverse = _
  rw [hreverse, List.reverse_append, List.reverse_reverse]
  rfl

/-- What trimming leaves starts and ends with other characters than it took
away. -/
theorem trim_ends {s : Bytes} (h : ∃ b ∈ s, isSpace b = false) : ∃ l r, s = l ++ (trim s ++ r) ∧
    (∀ a ∈ l, isSpace a = true) ∧ (∀ a ∈ r, isSpace a = true) ∧
    (∃ b t, trim s = b :: t ∧ isSpace b = false) ∧ ∃ t b, trim s = t ++ [b] ∧ isSpace b = false := by
  obtain ⟨l, r, hs, hspaces, hhead, hlast⟩ := trim_meets s
  obtain ⟨hl, hr⟩ := List.forall_mem_append.mp hspaces
  have hne : trim s ≠ [] := by
    intro hempty
    obtain ⟨b, hb, hspace⟩ := h
    rw [hs, hempty, List.append_nil] at hb
    rw [hspaces b hb] at hspace
    cases hspace
  generalize trim s = trimmed at *
  refine ⟨l, r, by rw [hs, List.append_assoc], hl, hr, ?_, ?_⟩
  · obtain ⟨b, t, rfl⟩ := List.exists_cons_of_ne_nil hne
    exact ⟨b, t, rfl, hhead b rfl⟩
  · have hconcat := List.dropLast_append_getLast hne
    exact ⟨_, _, hconcat.symm, hlast _ (List.getLast?_eq_some_getLast hne)⟩

end Boost

namespace FrontEnds

open FileSearchShell HttpServer QueryProcessor
open Boost (trim)

def isBlank (b : UInt8) : Bool := b == 32 || b == 9

/-- A query text of printable characters and tabs that is not blank. -/
structure QueryText where
  text : Bytes
  printable : ∀ b ∈ text, b = 9 ∨ 32 ≤ b ∧ b ≤ 126
  hasWord : nonBlank text = true

/-- The words that ProcessQueryRequest passes to ProcessQuery, if it calls it. -/
def requestWords (parser : URLParser) : Option (List Bytes) :=
  if (queryOf parser).isEmpty then none else some (queryWords (Boost.toLower (queryOf parser)))

def matchesOf (sorter : Sorter QueryResult.less) (indices : List OpenFile) (words : List Bytes) :
    Run (List QueryResult) := do
  let processor ← QueryProcessor.new indices false
  let (results, _) ← processQuery sorter processor words
  return results

theorem processQueryRequest_eq (sorter : Sorter QueryResult.less) (indices : List OpenFile) (uri : Bytes) :
    processQueryRequest sorter indices uri = do
      let parser ← URLParser.init.parse uri
      let found ← match requestWords parser with
        | none => pure []
        | some words => do
            let results ← matchesOf sorter indices words
            resultSection (Boost.toLower (queryOf parser)) results
      return ⟨protocol, 200, ascii "OK".toList, [], searchPage ++ found⟩ := by
  unfold processQueryRequest requestWords
  congr 1
  funext parser
  dsimp only
  split
  · rfl
  · exact bind_assoc (matchesOf sorter indices _) _ _

/-- Both front ends search for the words between the blanks, and what the
server finds depends on nothing else of the text. -/
structure SameWords (text : Bytes) (parser : URLParser) : Prop where
  request : requestWords parser = some (runs isBlank (Boost.toLower text))
  shell : queryOfLine text = .ok (runs isBlank (Boost.toLower text))
  found : ∀ sorter indices, findMatches sorter indices (Boost.toLower (queryOf parser)) =
    matchesOf sorter indices (runs isBlank (Boost.toLower text))

/-- Two blanks side by side are before the first word or behind the last. -/
def SingleSpaced (text : Bytes) : Prop :=
  ∀ p b c q, text = p ++ b :: c :: q → isBlank b = true → isBlank c = true →
    nonBlank p = false ∨ nonBlank q = false

theorem isBlank_lower (b : UInt8) : isBlank (if 65 ≤ b && b ≤ 90 then b + 32 else b) = isBlank b := by
  have hclear {c : UInt8} (hc : 32 < c.toNat) : isBlank c = false := by
    have hspace := isSpace_of_lt hc
    simp only [isBlank, Bool.or_eq_false_iff, beq_eq_false_iff_ne]
    constructor <;> rintro rfl <;> cases hspace
  split
  · next h =>
    obtain ⟨hb, hlower⟩ := lower_letter h
    rw [hclear hb, hclear hlower]
  · rfl

theorem isSpace_eq_isBlank {b : UInt8} (h : b = 9 ∨ 32 ≤ b ∧ b ≤ 126) : Boost.isSpace b = isBlank b := by
  rcases h with rfl | ⟨hlow, _⟩
  · rfl
  · have h9 : ¬b ≤ 13 := by
      rw [UInt8.not_le]
      exact UInt8.lt_of_lt_of_le (by decide) hlow
    have hne : b ≠ 9 := by
      rintro rfl
      exact h9 (by decide)
    simp [Boost.isSpace, isBlank, h9, hne]

namespace QueryText

variable (t : QueryText)

theorem exists_word : ∃ b ∈ t.text, Boost.isSpace b = false := nonBlank_eq_true.mp t.hasWord

theorem queryOfLine_runs : queryOfLine t.text = .ok (runs isBlank (Boost.toLower t.text)) := by
  rw [queryOfLine_eq, wordsOf]
  congr 1
  apply runs_congr
  intro a ha
  obtain ⟨b, hb, rfl⟩ := List.mem_map.mp ha
  rw [isSpace_lower, isBlank_lower]
  exact isSpace_eq_isBlank (t.printable b hb)

/-- The blanks around the words do not count. -/
theorem runs_trim : runs isBlank (Boost.toLower t.text) = runs isBlank (Boost.toLower (trim t.text)) := by
  obtain ⟨l, r, htext, hl, hr, _, _⟩ := Boost.trim_ends t.exists_word
  have hgap {gap : Bytes} (hmem : ∀ b ∈ gap, b ∈ t.text) (h : ∀ b ∈ gap, Boost.isSpace b = true) :
      ∀ a ∈ Boost.toLower gap, isBlank a = true := by
    intro a ha
    obtain ⟨b, hb, rfl⟩ := List.mem_map.mp ha
    rw [isBlank_lower, ← isSpace_eq_isBlank (t.printable b (hmem b hb))]
    exact h b hb
  have hl' := hgap (fun b hb => by rw [htext]; simp [hb]) hl
  have hr' := hgap (fun b hb => by rw [htext]; simp [hb]) hr
  conv_lhs => rw [htext]
  simp only [Boost.toLower, List.map_append] at hl' hr' ⊢
  rw [runs_gap hl', runs_append_gap hr']

theorem queryWords_eq {parser : URLParser} (h : parser.arg (ascii "terms".toList) = t.text) :
    queryWords (Boost.toLower (queryOf parser)) = (Boost.toLower (trim t.text)).splitOnP isBlank := by
  rw [queryOf, h]
  exact Boost.split_eq_splitOnP isBlank _

theorem requestWords_eq {parser : URLParser} (h : parser.arg (ascii "terms".toList) = t.text) :
    requestWords parser = some ((Boost.toLower (trim t.text)).splitOnP isBlank) := by
  obtain ⟨_, _, _, _, _, ⟨b, s, htrim, _⟩, _⟩ := Boost.trim_ends t.exists_word
  have hne : ¬(queryOf parser).isEmpty = true := by
    rw [queryOf, h, htrim]
    exact Bool.false_ne_true
  rw [requestWords, if_neg hne, t.queryWords_eq h]

/-- A split has an empty word where two blanks stand side by side between the
words. -/
theorem nil_mem_split : [] ∈ (trim t.text).splitOnP isBlank ↔ ¬SingleSpaced t.text := by
  obtain ⟨l, r, htext, _, _, ⟨b₀, s₀, hhead, hb₀⟩, s₁, b₁, hlast, hb₁⟩ := Boost.trim_ends t.exists_word
  have hclear {b : UInt8} (hb : b ∈ trim t.text) (h : Boost.isSpace b = false) : isBlank b = false := by
    rw [← isSpace_eq_isBlank (t.printable b (by rw [htext]; simp [hb])), h]
  have hfirst : (trim t.text).head? = some b₀ := by rw [hhead]; rfl
  have hfinal : (trim t.text).getLast? = some b₁ := by rw [hlast, List.getLast?_concat]
  have hclear₀ := hclear (List.mem_of_head? hfirst) hb₀
  have hclear₁ := hclear (List.mem_of_getLast? hfinal) hb₁
  rw [nil_mem_splitOnP_iff hfirst hfinal hclear₀ hclear₁]
  constructor
  · rintro ⟨x, d, e, y, htrim, hd, he⟩ hspaced
    rw [htrim] at hfirst hfinal
    obtain ⟨hx, hy⟩ := ends_mem hfirst hfinal hclear₀ hclear₁ hd he
    have hcut : t.text = (l ++ x) ++ d :: e :: (y ++ r) := by rw [htext, htrim]; simp
    rcases hspaced _ d e _ hcut hd he with hp | hq
    · have hp' := nonBlank_eq_true.mpr ⟨b₀, List.mem_append_right l hx, hb₀⟩
      rw [hp] at hp'
      cases hp'
    · have hq' := nonBlank_eq_true.mpr ⟨b₁, List.mem_append_left r hy, hb₁⟩
      rw [hq] at hq'
      cases hq'
  · intro h
    obtain ⟨p, b, c, q, hsplit, hb, hc, hp, hq⟩ : ∃ p b c q, t.text = p ++ b :: c :: q ∧ isBlank b = true ∧
        isBlank c = true ∧ nonBlank p = true ∧ nonBlank q = true := by simpa [SingleSpaced] using h
    refine ⟨Boost.trimLeft p, b, c, Boost.trimRight q, ?_, hb, hc⟩
    rw [trim, hsplit, show p ++ b :: c :: q = (p ++ [b, c]) ++ q by simp,
      Boost.trimRight_append (nonBlank_eq_true.mp hq), List.append_assoc,
      Boost.trimLeft_append (nonBlank_eq_true.mp hp)]
    rfl

theorem nil_mem_lower : [] ∈ (Boost.toLower (trim t.text)).splitOnP isBlank ↔ ¬SingleSpaced t.text := by
  rw [← t.nil_mem_split, Boost.toLower, splitOnP_map isBlank_lower]
  simp

end QueryText

/-- A search for an empty word finds nothing, as no file has it. -/
theorem findMatches_doubled (t : QueryText) {parser : URLParser} (h : parser.arg (ascii "terms".toList) = t.text)
    (hdoubled : ¬SingleSpaced t.text) (sorter : Sorter QueryResult.less) {indices : List IndexedFile}
    (hindices : indices ≠ []) (hwords : ∀ x ∈ indices, ∀ a ∈ x.adds, a.word ≠ [])
    (hfit : ∀ x ∈ indices, SumsFit x.mi.stored (queryWords (Boost.toLower (queryOf parser)))) :
    findMatches sorter (indices.map IndexedFile.file) (Boost.toLower (queryOf parser)) = .ok [] := by
  have hnil : [] ∈ queryWords (Boost.toLower (queryOf parser)) := by
    rw [t.queryWords_eq h, t.nil_mem_lower]
    exact hdoubled
  obtain ⟨word, query, hquery⟩ := List.exists_cons_of_ne_nil (queryWords_ne_nil (Boost.toLower (queryOf parser)))
  rw [hquery] at hnil hfit
  obtain ⟨qp, hnew, hserves⟩ := new_serves false hindices
  obtain ⟨results, live, readers', hrun, _, hexact⟩ := queryIndices_ranks hserves hfit
  have hnone : results = [] := by
    apply List.eq_nil_iff_forall_not_mem.mpr
    intro res hres
    obtain ⟨x, hx, docId, _, hall, _⟩ := hexact res hres
    obtain ⟨a, ha, hword, _⟩ := hall [] hnil
    exact hwords x hx a ha hword
  rw [findMatches, hnew, Run.ok_bind, hquery, processQuery, hrun, hnone]
  exact congrArg Except.ok (List.Perm.eq_nil (sorter.perm []))

theorem same_words_iff (t : QueryText) {parser : URLParser} (h : parser.arg (ascii "terms".toList) = t.text) :
    SameWords t.text parser ↔ SingleSpaced t.text := by
  have hrequest := t.requestWords_eq h
  have hsplit : (Boost.toLower (trim t.text)).splitOnP isBlank = runs isBlank (Boost.toLower t.text) ↔
      SingleSpaced t.text := by
    rw [t.runs_trim, splitOnP_eq_runs, t.nil_mem_lower, not_not]
  constructor
  · rintro ⟨hwords, _, _⟩
    rw [hrequest, Option.some.injEq] at hwords
    exact hsplit.mp hwords
  · intro hspaced
    rw [hsplit.mpr hspaced] at hrequest
    refine ⟨hrequest, t.queryOfLine_runs, ?_⟩
    intro sorter indices
    rw [requestWords] at hrequest
    split at hrequest
    · cases hrequest
    · rw [← Option.some.inj hrequest]
      rfl

def twoWords : QueryText := ⟨ascii " Cat dog".toList, by simp [ascii], by decide⟩

theorem same_words_two : SameWords twoWords.text (URLParser.init.parsed (ascii "/query?terms=+Cat+dog".toList)) := by
  apply (same_words_iff twoWords (by decide +kernel)).mpr
  apply Classical.not_not.mp
  rw [← twoWords.nil_mem_split]
  decide

def farWords : QueryText := ⟨ascii "cat  dog".toList, by simp [ascii], by decide⟩

/-- The server also searches for an empty word, which no file has. -/
theorem not_same_words : ¬∀ (t : QueryText) (parser : URLParser), parser.arg (ascii "terms".toList) = t.text →
    SameWords t.text parser := by
  intro h
  have hsame := h farWords (URLParser.init.parsed (ascii "/query?terms=cat++dog".toList)) (by decide +kernel)
  exact absurd hsame.request (by decide +kernel)

end FrontEnds

end SearchEngine
