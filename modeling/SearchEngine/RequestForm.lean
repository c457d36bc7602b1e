import SearchEngine.HttpConnection
import SearchEngine.LayoutStructs
import SearchEngine.Library.HeaderBlock
import SearchEngine.Library.Separated

/-! Requests of the form that HttpRequest documents, and what is read from
them. -/

namespace SearchEngine

open Separated

namespace Boost

open Framing

variable {isDelim : UInt8 → Bool}

/-- Words with one space between them are taken apart. -/
theorem split_words {isDelim : UInt8 → Bool} {words : List Bytes}
    (h : ∀ w ∈ words, w ≠ [] ∧ ∀ b ∈ w, isDelim b = false) (hwords : words ≠ []) {d : UInt8} (hd : isDelim d = true) :
    split isDelim (compress isDelim ([d].intercalate words)) = words := by
  induction words with
  | nil => exact absurd rfl hwords
  | cons w words ih =>
      obtain ⟨_, hclear⟩ := h w List.mem_cons_self
      cases words with
      | nil =>
          rw [List.intercalate_singleton, compress_clear hclear, split_clear hclear]
      | cons w' words =>
          have hrest := ih (fun v hv => h v (List.mem_cons_of_mem w hv)) (List.cons_ne_nil w' words)
          obtain ⟨b, w'', rfl⟩ := List.exists_cons_of_ne_nil (h w' (by simp)).1
          have hb : isDelim b = false := (h (b :: w'') (by simp)).2 b List.mem_cons_self
          obtain ⟨more, hmore⟩ : ∃ more, [d].intercalate ((b :: w'') :: words) = b :: more := by
            cases words with
            | nil => exact ⟨w'', List.intercalate_singleton⟩
            | cons v words => exact ⟨_, List.intercalate_cons_cons⟩
          rw [hmore] at hrest
          rw [List.intercalate_cons_cons, hmore, List.append_assoc, compress_token hclear, List.singleton_append,
            compress_single hb, split_token hclear hd, hrest]

/-- The lines of a block are taken apart, and an empty one is left at the
end. -/
theorem split_block {cr lf : UInt8} (hcr : isDelim cr = true) (hlf : isDelim lf = true) {lines : List Bytes}
    (h : ∀ line ∈ lines, line ≠ [] ∧ ∀ b ∈ line, isDelim b = false) (hlines : lines ≠ []) :
    split isDelim (compress isDelim (block [cr, lf] lines)) = lines ++ [[]] := by
  induction lines with
  | nil => exact absurd rfl hlines
  | cons line lines ih =>
      obtain ⟨_, hclear⟩ := h line List.mem_cons_self
      rw [block_cons, List.append_assoc, compress_token hclear, List.cons_append, List.singleton_append,
        compress_run hcr hlf]
      cases lines with
      | nil =>
          have hend : compress isDelim (lf :: block [cr, lf] []) = [lf] := by
            change compress isDelim [lf, cr, lf] = [lf]
            rw [compress_run hlf hcr, compress_run hcr hlf]
            rfl
          rw [hend, split_token hclear hlf]
          rfl
      | cons line' lines =>
          have hrest := ih (fun l hl => h l (List.mem_cons_of_mem line hl)) (List.cons_ne_nil line' lines)
          obtain ⟨b, line'', rfl⟩ := List.exists_cons_of_ne_nil (h line' (by simp)).1
          have hb : isDelim b = false := (h (b :: line'') (by simp)).2 b List.mem_cons_self
          obtain ⟨more, hmore⟩ : ∃ more, block [cr, lf] ((b :: line'') :: lines) = b :: more :=
            ⟨_, by rw [block_cons, List.cons_append, List.cons_append]⟩
          rw [hmore] at hrest ⊢
          rw [compress_single hb, split_token hclear hlf, hrest]
          rfl

theorem split_upTo (c : UInt8) (s : Bytes) : ∃ tokens, split (fun b => b == c) s = upTo c s :: tokens := by
  have hclear : ∀ b ∈ upTo c s, (b == c) = false := by
    intro b hb
    rw [beq_eq_false_iff_ne]
    rintro rfl
    exact not_mem_upTo b s hb
  obtain ⟨back, hsplit, rfl | ⟨more, rfl⟩⟩ := upTo_split c s
  · rw [List.append_nil] at hsplit
    rw [← hsplit] at hclear ⊢
    exact ⟨[], split_clear hclear⟩
  · exact ⟨split (fun b => b == c) more, by conv_lhs => rw [hsplit, split_token hclear (beq_self_eq_true c)]⟩

theorem trimLeft_trimmed {s : Bytes} (h : ∀ b ∈ s.head?, isSpace b = false) : trimLeft s = s := by
  cases s with
  | nil => rfl
  | cons b s => rw [trimLeft, List.dropWhile_cons, h b rfl, if_neg Bool.false_ne_true]

theorem trimRight_trimmed {s : Bytes} (h : ∀ b ∈ s.getLast?, isSpace b = false) : trimRight s = s := by
  have hreverse : trimLeft s.reverse = s.reverse := by
    apply trimLeft_trimmed
    intro b hb
    rw [List.head?_reverse] at hb
    exact h b hb
  rw [trimRight]
  change (trimLeft s.reverse).reverse = s
  rw [hreverse, List.reverse_reverse]

theorem trimRight_space (s : Bytes) {b : UInt8} (h : isSpace b = true) : trimRight (s ++ [b]) = trimRight s := by
  rw [trimRight, List.reverse_concat, List.dropWhile_cons, if_pos h]
  rfl

end Boost

/-- A header line: the name has no colon and no white space, and the value has
none around it. -/
structure HeaderLine where
  name : Bytes
  value : Bytes
  named : name ≠ []
  nameClear : ∀ b ∈ name, b ≠ 58 ∧ Boost.isSpace b = false
  valueClear : 13 ∉ value ∧ 10 ∉ value
  startTrimmed : ∀ b ∈ value.head?, Boost.isSpace b = false
  endTrimmed : ∀ b ∈ value.getLast?, Boost.isSpace b = false

namespace HeaderLine

def bytes (h : HeaderLine) : Bytes := h.name ++ ascii [':', ' '] ++ h.value

def key (h : HeaderLine) : Bytes := Boost.toLower h.name

theorem bytes_clear (h : HeaderLine) : h.bytes ≠ [] ∧ ∀ b ∈ h.bytes, (b == 13 || b == 10) = false := by
  constructor
  · simp [bytes, h.named]
  · intro b hb
    rw [Bool.or_eq_false_iff, beq_eq_false_iff_ne, beq_eq_false_iff_ne]
    rcases List.mem_append.mp hb with hb | hb
    · rcases List.mem_append.mp hb with hb | hb
      · have hspace := (h.nameClear b hb).2
        constructor <;> rintro rfl <;> exact absurd hspace (by decide)
      · have hsep : b = 58 ∨ b = 32 := by simpa [ascii] using hb
        rcases hsep with rfl | rfl <;> decide
    · constructor
      · rintro rfl
        exact h.valueClear.1 hb
      · rintro rfl
        exact h.valueClear.2 hb

end HeaderLine

/-- A part of the first line of a request. -/
structure RequestWord where
  bytes : Bytes
  nonempty : bytes ≠ []
  clear : 32 ∉ bytes ∧ 13 ∉ bytes ∧ 10 ∉ bytes

/-- A request of the documented form. -/
structure RequestForm where
  method : RequestWord
  uri : RequestWord
  protocol : RequestWord
  headers : List HeaderLine
  distinct : (headers.map HeaderLine.key).Nodup

namespace RequestForm

open Framing HttpConnection

def firstLine (r : RequestForm) : Bytes :=
  r.method.bytes ++ ascii [' '] ++ r.uri.bytes ++ ascii [' '] ++ r.protocol.bytes

theorem firstLine_clear (r : RequestForm) :
    r.firstLine ≠ [] ∧ ∀ b ∈ r.firstLine, (b == 13 || b == 10) = false := by
  have hword (w : RequestWord) : ∀ b ∈ w.bytes, (b == 13 || b == 10) = false := by
    intro b hb
    rw [Bool.or_eq_false_iff, beq_eq_false_iff_ne, beq_eq_false_iff_ne]
    constructor
    · rintro rfl
      exact w.clear.2.1 hb
    · rintro rfl
      exact w.clear.2.2 hb
  have hspace : ∀ b ∈ ascii [' '], (b == 13 || b == 10) = false := by simp [ascii]
  constructor
  · simp [firstLine, r.method.nonempty]
  · simp only [firstLine, List.mem_append]
    rintro b ((((hb | hb) | hb) | hb) | hb)
    · exact hword r.method b hb
    · exact hspace b hb
    · exact hword r.uri b hb
    · exact hspace b hb
    · exact hword r.protocol b hb

def bytes (r : RequestForm) : Bytes :=
  r.firstLine ++ HttpResponse.crlf ++ r.headers.flatMap (fun h => h.bytes ++ HttpResponse.crlf) ++ HttpResponse.crlf

end RequestForm

/-- GetHeaderCount returns the size of the map as an int. -/
def HttpRequest.getHeaderCount (req : HttpRequest) : Int := int32 req.headers.entries.length

/-- The request has been recovered. -/
structure RequestForm.Recovered (r : RequestForm) (req : HttpRequest) : Prop where
  uri : req.uri = r.uri.bytes
  values : ∀ h ∈ r.headers, req.getHeaderValue h.key = h.value
  count : req.getHeaderCount = r.headers.length

namespace HttpConnection

theorem trimRight_header (h : HeaderLine) : ∃ rest, Boost.trimRight h.bytes = h.name ++ 58 :: rest ∧
    Boost.trimLeft (upTo 58 rest) = upTo 58 h.value := by
  have hcolon : h.bytes = h.name ++ [58] ++ [32] ++ h.value := by simp [HeaderLine.bytes, ascii]
  by_cases hnil : h.value = []
  · refine ⟨[], ?_, by rw [hnil]; rfl⟩
    rw [hcolon, hnil, List.append_nil, Boost.trimRight_space _ rfl, Boost.trimRight_trimmed]
    intro b hb
    obtain rfl : 58 = b := by simpa using hb
    rfl
  · refine ⟨32 :: h.value, ?_, ?_⟩
    · rw [Boost.trimRight_trimmed]
      · rw [hcolon]
        simp
      · intro b hb
        rw [hcolon, List.getLast?_append_of_ne_nil _ hnil] at hb
        exact h.endTrimmed b hb
    · have hclear : (58 : UInt8) ∉ ([32] : Bytes) := by decide
      have hspace : upTo 58 (32 :: h.value) = 32 :: upTo 58 h.value := upTo_append hclear h.value
      rw [hspace]
      change Boost.trimLeft (upTo 58 h.value) = _
      apply Boost.trimLeft_trimmed
      intro b hb
      obtain ⟨back, hsplit, _⟩ := upTo_split 58 h.value
      apply h.startTrimmed b
      rw [hsplit]
      exact List.mem_head?_append_of_mem_head? hb

theorem parseHeaderLine_form (h : HeaderLine) (req : HttpRequest) :
    parseHeaderLine req h.bytes = req.addHeader h.key (upTo 58 h.value) := by
  obtain ⟨rest, htrim, hvalue⟩ := trimRight_header h
  have hname : ∀ b ∈ h.name, (b == 58) = false := fun b hb => beq_eq_false_iff_ne.mpr (h.nameClear b hb).1
  obtain ⟨tokens, htokens⟩ := Boost.split_upTo 58 rest
  have hempty : (h.name ++ 58 :: rest).isEmpty = false := by simp
  unfold parseHeaderLine
  dsimp only
  rw [htrim, hempty, if_neg Bool.false_ne_true, Boost.split_token hname rfl, htokens]
  dsimp only
  rw [hvalue]
  rfl

theorem parseRequest_form (r : RequestForm) :
    parseRequest r.bytes = r.headers.foldl (fun req h => req.addHeader h.key (upTo 58 h.value)) ⟨r.uri.bytes, ∅⟩ := by
  have hblock : r.bytes = Framing.block [13, 10] (r.firstLine :: r.headers.map HeaderLine.bytes) := by
    rw [RequestForm.bytes, Framing.block_cons, Framing.block, List.flatMap_map, List.append_assoc]
    rfl
  have hlines : ∀ line ∈ r.firstLine :: r.headers.map HeaderLine.bytes,
      line ≠ [] ∧ ∀ b ∈ line, (b == 13 || b == 10) = false := by
    intro line hline
    rcases List.mem_cons.mp hline with rfl | hline
    · exact r.firstLine_clear
    · obtain ⟨h, _, rfl⟩ := List.mem_map.mp hline
      exact h.bytes_clear
  have hwords : Boost.split (fun b => b == 32) (Boost.compress (fun b => b == 32) r.firstLine) =
      [r.method.bytes, r.uri.bytes, r.protocol.bytes] := by
    have hfirst : r.firstLine = [32].intercalate [r.method.bytes, r.uri.bytes, r.protocol.bytes] := by
      simp [RequestForm.firstLine, ascii]
    rw [hfirst]
    refine Boost.split_words ?_ (List.cons_ne_nil _ _) rfl
    have hword (w : RequestWord) : w.bytes ≠ [] ∧ ∀ b ∈ w.bytes, (b == 32) = false := by
      refine ⟨w.nonempty, fun b hb => beq_eq_false_iff_ne.mpr ?_⟩
      rintro rfl
      exact w.clear.1 hb
    simp only [List.mem_cons, List.not_mem_nil, or_false]
    rintro w (rfl | rfl | rfl)
    · exact hword r.method
    · exact hword r.uri
    · exact hword r.protocol
  unfold parseRequest
  dsimp only
  rw [hblock, Boost.split_block rfl rfl hlines (List.cons_ne_nil _ _), List.cons_append]
  dsimp only
  rw [hwords, List.foldl_append, List.foldl_map]
  simp only [parseHeaderLine_form]
  rfl

/-- Headers with keys of their own. -/
theorem foldl_addHeader {hs : List HeaderLine} (hdistinct : (hs.map HeaderLine.key).Nodup) (value : HeaderLine → Bytes)
    (req : HttpRequest) (hnew : ∀ h ∈ hs, h.key ∉ req.headers) :
    (hs.foldl (fun req h => req.addHeader h.key (value h)) req).uri = req.uri ∧
    (hs.foldl (fun req h => req.addHeader h.key (value h)) req).headers.entries.length =
      req.headers.entries.length + hs.length ∧
    (∀ k, k ∉ hs.map HeaderLine.key →
      (hs.foldl (fun req h => req.addHeader h.key (value h)) req).headers.lookup k = req.headers.lookup k) ∧
    ∀ h ∈ hs, (hs.foldl (fun req h => req.addHeader h.key (value h)) req).headers.lookup h.key = some (value h) := by
  induction hs generalizing req with
  | nil => simp
  | cons h hs ih =>
      obtain ⟨hfresh, hdistinct⟩ := List.nodup_cons.mp hdistinct
      have hkey : h.key ∉ req.headers := hnew h List.mem_cons_self
      obtain ⟨huri, hcount, hkeep, hvalues⟩ := ih hdistinct (req.addHeader h.key (value h)) (by
        intro h' hh'
        rw [HttpRequest.addHeader, AList.mem_insert, not_or]
        refine ⟨?_, hnew h' (List.mem_cons_of_mem h hh')⟩
        intro heq
        exact hfresh (heq ▸ List.mem_map_of_mem hh'))
      rw [List.foldl_cons]
      refine ⟨huri, ?_, ?_, ?_⟩
      · rw [hcount, HttpRequest.addHeader, AList.entries_insert_of_notMem hkey, List.length_cons, List.length_cons]
        omega
      · intro k hk
        rw [List.map_cons, List.mem_cons, not_or] at hk
        rw [hkeep k hk.2, HttpRequest.addHeader, AList.lookup_insert_ne hk.1]
      · intro h' hh'
        rcases List.mem_cons.mp hh' with rfl | hh'
        · rw [hkeep h'.key hfresh, HttpRequest.addHeader, AList.lookup_insert]
        · exact hvalues h' hh'

/-- A value is read up to its first colon. -/
theorem parseRequest_recovers_iff (r : RequestForm) :
    r.Recovered (parseRequest r.bytes) ↔ (∀ h ∈ r.headers, 58 ∉ h.value) ∧ r.headers.length < 2 ^ 31 := by
  obtain ⟨huri, hcount, _, hvalues⟩ := foldl_addHeader r.distinct (fun h => upTo 58 h.value) ⟨r.uri.bytes, ∅⟩
    fun h _ => AList.notMem_empty h.key
  rw [← parseRequest_form] at huri hcount hvalues
  have hvalue : ∀ h ∈ r.headers, (parseRequest r.bytes).getHeaderValue h.key = upTo 58 h.value := by
    intro h hh
    rw [HttpRequest.getHeaderValue, hvalues h hh]
    rfl
  have hlen : (parseRequest r.bytes).getHeaderCount = int32 r.headers.length := by
    rw [HttpRequest.getHeaderCount, hcount, AList.empty_entries, List.length_nil, Nat.zero_add]
  constructor
  · intro hrecovered
    constructor
    · intro h hh
      rw [← upTo_eq_self, ← hvalue h hh]
      exact hrecovered.values h hh
    · rw [← int32_eq_natCast, ← hlen]
      exact hrecovered.count
  · rintro ⟨hcolons, hshort⟩
    refine ⟨huri, ?_, ?_⟩
    · intro h hh
      rw [hvalue h hh, upTo_eq_self]
      exact hcolons h hh
    · rw [hlen, int32_eq_natCast]
      exact hshort

/-- GET / HTTP/1.1 with the header Host: a:80. -/
def hostWithPort : RequestForm where
  method := ⟨ascii ['G', 'E', 'T'], by decide, by decide⟩
  uri := ⟨ascii ['/'], by decide, by decide⟩
  protocol := ⟨ascii ['H', 'T', 'T', 'P', '/', '1', '.', '1'], by decide, by decide⟩
  headers := [⟨ascii ['H', 'o', 's', 't'], ascii ['a', ':', '8', '0'], by decide, by simp [ascii, Boost.isSpace],
    by decide, by simp [ascii, Boost.isSpace], by simp [ascii, Boost.isSpace]⟩]
  distinct := by decide

theorem parseRequest_hostWithPort :
    (parseRequest hostWithPort.bytes).getHeaderValue (ascii ['h', 'o', 's', 't']) = ascii ['a'] ∧
      ¬hostWithPort.Recovered (parseRequest hostWithPort.bytes) := by
  have hvalue : (parseRequest hostWithPort.bytes).getHeaderValue (ascii ['h', 'o', 's', 't']) = ascii ['a'] := by
    decide +kernel
  refine ⟨hvalue, ?_⟩
  intro hrecovered
  have hhost : ascii ['a'] = ascii ['a', ':', '8', '0'] := hvalue.symm.trans (hrecovered.values _ List.mem_cons_self)
  revert hhost
  decide

end HttpConnection

end SearchEngine
