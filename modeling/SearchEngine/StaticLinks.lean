import SearchEngine.PercentEncoding
import SearchEngine.StaticFiles

/-! Where the links of a result page lead. -/

namespace SearchEngine

namespace URLParser

open HttpUtils

theorem path_parsed (p : URLParser) {front : Bytes} (h : 63 ∉ front) (back : Bytes) :
    (p.parsed front).path = decoded front ∧ (p.parsed (front ++ 63 :: back)).path = decoded front := by
  have hclear : ∀ b ∈ front, (b == 63) = false := by
    intro b hb
    rw [beq_eq_false_iff_ne]
    rintro rfl
    exact h hb
  obtain ⟨args, more, hargs⟩ := List.exists_cons_of_ne_nil (Boost.split_ne_nil (fun b => b == 63) back)
  constructor
  · rw [parsed, Boost.split_clear hclear]
  · rw [parsed, Boost.split_token hclear rfl, hargs]

theorem short_of_clear {url : Bytes} (h : 63 ∉ url) : ShortUrl url ↔ url.length < 2 ^ 32 := by
  have hclear : ∀ b ∈ url, (b == 63) = false := by
    intro b hb
    rw [beq_eq_false_iff_ne]
    rintro rfl
    exact h hb
  rw [ShortUrl, Boost.split_clear hclear]

end URLParser

namespace HttpServer

open HttpUtils Separated StdString

theorem decoded_static (t : Bytes) : decoded (staticPrefix ++ t) = staticPrefix ++ decoded t := by
  have hplain : ∀ (s : Bytes), (∀ c ∈ s, c ≠ 37 ∧ c ≠ 43) → decoded (s ++ t) = s ++ decoded t := by
    intro s hs
    induction s with
    | nil => rfl
    | cons c s ih =>
        obtain ⟨hpercent, hplus⟩ := hs c List.mem_cons_self
        rw [List.cons_append, decoded_cons hpercent, if_neg hplus, ih fun b hb => hs b (List.mem_cons_of_mem c hb)]
        rfl
  exact hplain staticPrefix (by simp [staticPrefix, ascii])

theorem fileNameOf_static (fileName : Bytes) : fileNameOf (staticPrefix ++ fileName) = .ok fileName := by
  have hstart : (staticPrefix ++ fileName).take 8 = staticPrefix := List.take_left' rfl
  rw [fileNameOf, startsWithStatic_eq, hstart, Run.ok_bind, decide_eq_true rfl, if_pos rfl, substrFrom, if_pos]
  · rfl
  · rw [List.length_append]
    exact Nat.le_add_right 8 _

theorem not_mem_static {front : Bytes} (h : 63 ∉ front) : 63 ∉ staticPrefix ++ front := by
  rw [List.mem_append]
  rintro (hmem | hmem)
  · revert hmem
    decide
  · exact h hmem

theorem short_static {front : Bytes} (h : 63 ∉ front) :
    URLParser.ShortUrl (staticPrefix ++ front) ↔ front.length + 8 < 2 ^ 32 := by
  rw [URLParser.short_of_clear (not_mem_static h), List.length_append, Nat.add_comm]
  rfl

/-- What a request below /static/ asks for. -/
theorem requestedName_static {front back : Bytes} (h : 63 ∉ front) (hback : back = [] ∨ ∃ more, back = 63 :: more)
    (hshort : URLParser.ShortUrl (staticPrefix ++ (front ++ back))) :
    requestedName (staticPrefix ++ (front ++ back)) = .ok (some (decoded front)) := by
  have hclear := not_mem_static h
  have hpath : (URLParser.init.parsed (staticPrefix ++ (front ++ back))).path = staticPrefix ++ decoded front := by
    rw [← decoded_static, ← List.append_assoc]
    rcases hback with rfl | ⟨more, rfl⟩
    · rw [List.append_nil]
      exact (URLParser.init.path_parsed hclear []).1
    · exact (URLParser.init.path_parsed hclear more).2
  rw [requestedName, URLParser.parse_short hshort, Run.ok_bind, hpath, fileNameOf_static]
  rfl

theorem short_of_requestedName {uri : Bytes} {name : Option Bytes} (h : requestedName uri = .ok name) :
    URLParser.ShortUrl uri := by
  rw [requestedName] at h
  obtain ⟨parser, hparser, _⟩ := Run.bind_eq_ok.mp h
  exact (URLParser.parse_iff _ _).mp ⟨parser, hparser⟩

theorem requestedName_path {path : Bytes} (h : 63 ∉ path) {name : Option Bytes} :
    requestedName (staticPrefix ++ path) = .ok name ↔ path.length + 8 < 2 ^ 32 ∧ name = some (decoded path) := by
  rw [← List.append_nil path]
  constructor
  · intro hname
    have hshort := short_of_requestedName hname
    rw [requestedName_static h (.inl rfl) hshort] at hname
    rw [List.append_nil] at hshort ⊢
    exact ⟨(short_static h).mp hshort, (Except.ok.inj hname).symm⟩
  · rintro ⟨hlen, rfl⟩
    rw [List.append_nil] at hlen
    rw [requestedName_static h (.inl rfl), List.append_nil]
    rw [List.append_nil]
    exact (short_static h).mpr hlen

/-- The text between the quotes of the first attribute. -/
def quoted (item : Bytes) : Bytes := upTo 34 ((item.dropWhile (· ≠ 34)).drop 1)

/-- The file that is asked for when the link of a match is followed. -/
def followLink (result : QueryResult) : Run (Option Bytes) := do
  let item ← resultItem result
  requestedName (quoted item)

/-- Nothing in the name has a meaning in a link, and the link can be parsed. -/
structure Linkable (name : Bytes) : Prop where
  noQuote : 34 ∉ name
  noQuery : 63 ∉ name
  plain : Plain name
  short : name.length + 8 < 2 ^ 32

theorem quoted_append {front : Bytes} (h : 34 ∉ front) (text more : Bytes) :
    quoted (front ++ 34 :: (text ++ 34 :: more)) = upTo 34 text := by
  have hfront : ∀ b ∈ front, decide (b ≠ 34) = true := by
    intro b hb
    have hne : b ≠ 34 := fun hbc => h (hbc ▸ hb)
    simpa using hne
  rw [quoted, List.dropWhile_append_of_pos hfront]
  exact upTo_stop 34 text more

theorem quoted_item (result : QueryResult) (h : ¬ascii "http:".toList <+: result.documentName) :
    ∃ item, resultItem result = .ok item ∧ quoted item = staticPrefix ++ upTo 34 result.documentName := by
  have hcompare : comparesEqual result.documentName 0 5 (ascii "http:".toList) = .ok false := by
    have hne : result.documentName.take 5 ≠ ascii "http:".toList := by
      intro htake
      apply h
      rw [← htake]
      exact List.take_prefix 5 _
    rw [comparesEqual, substr, if_pos (Nat.zero_le _), Run.ok_bind, List.drop_zero, decide_eq_false hne]
    rfl
  rw [resultItem, escapeHtml_eq, Run.ok_bind, hcompare, Run.ok_bind]
  refine ⟨_, rfl, ?_⟩
  have hstatic : (34 : UInt8) ∉ staticPrefix := by decide
  have hopen : 34 ∉ ascii "<li><a href=".toList := by decide
  rw [← upTo_append hstatic, ← quoted_append hopen _
    (62 :: (result.documentName.flatMap escapeChar ++ ascii "</a> [".toList ++ decimalOf result.rank ++
      ascii "]".toList ++ ascii "</li>\r\n".toList))]
  simp [ascii, staticPrefix]

theorem followLink_iff (result : QueryResult) (h : ¬ascii "http:".toList <+: result.documentName) :
    followLink result = .ok (some result.documentName) ↔ Linkable result.documentName := by
  obtain ⟨item, hitem, hquoted⟩ := quoted_item result h
  rw [followLink, hitem, Run.ok_bind, hquoted]
  generalize result.documentName = name
  obtain ⟨back, hsplit, hback⟩ := upTo_split 63 (upTo 34 name)
  constructor
  · intro hname
    have hshort := short_of_requestedName hname
    rw [hsplit] at hname hshort
    rw [requestedName_static (not_mem_upTo 63 _) hback hshort] at hname
    have hdecoded : decoded (upTo 63 (upTo 34 name)) = name := Option.some.inj (Except.ok.inj hname)
    -- nothing can have been cut off, since decoding does not lengthen
    have hle := length_decoded_le (upTo 63 (upTo 34 name))
    have hle63 := (upTo_isPrefix 63 (upTo 34 name)).length_le
    have hle34 := (upTo_isPrefix 34 name).length_le
    rw [hdecoded] at hle
    have h34 : upTo 34 name = name := (upTo_isPrefix 34 name).eq_of_length (by omega)
    have h63 : upTo 63 (upTo 34 name) = upTo 34 name := (upTo_isPrefix 63 _).eq_of_length (by omega)
    have hquote := not_mem_upTo 34 name
    have hquery := not_mem_upTo 63 (upTo 34 name)
    rw [h34] at hquote h63
    rw [h34, h63] at hdecoded hquery
    rw [← hsplit, h34, short_static hquery] at hshort
    exact ⟨hquote, hquery, decoded_eq_self.mp hdecoded, hshort⟩
  · intro hlink
    rw [upTo_of_not_mem hlink.noQuote, requestedName_path hlink.noQuery, decoded_plain hlink.plain]
    exact ⟨hlink.short, rfl⟩

theorem followLink_iff_plain :
    followLink ⟨ascii "docs/a&b.txt".toList, 3⟩ = .ok (some (ascii "docs/a&b.txt".toList)) := by
  apply (followLink_iff ⟨ascii "docs/a&b.txt".toList, 3⟩ (by decide)).mpr
  exact ⟨by decide, by decide, decoded_eq_self.mp (by decide), by decide⟩

/-- The link of the document a+b asks for the file named a, space, b. -/
theorem followLink_plus : ¬ascii "http:".toList <+: ascii "a+b".toList ∧
    followLink ⟨ascii "a+b".toList, 1⟩ = .ok (some (ascii "a b".toList)) ∧
    followLink ⟨ascii "a+b".toList, 1⟩ ≠ .ok (some (ascii "a+b".toList)) := by
  have hlink : followLink ⟨ascii "a+b".toList, 1⟩ = .ok (some (ascii "a b".toList)) := by decide +kernel
  refine ⟨by decide, hlink, ?_⟩
  rw [hlink]
  decide

end HttpServer

end SearchEngine
