import SearchEngine.StaticLinks
import SearchEngine.HttpConnection
import SearchEngine.Library.HeaderBlock
import SearchEngine.Library.ItemReader

/-! How a client cuts a stream of responses apart. -/

namespace SearchEngine

namespace HttpResponse

open Framing HttpConnection

def contentLengthName : Bytes := ascii ['C', 'o', 'n', 't', 'e', 'n', 't', '-', 'l', 'e', 'n', 'g', 't', 'h', ':', ' ']

def isDigit (b : UInt8) : Bool := 48 ≤ b && b ≤ 57

def numberOf (digits : Bytes) : Nat := digits.foldl (fun n b => 10 * n + (b.toNat - 48)) 0

/-- The number that a line gives, if it is a content length. -/
def lengthIn (line : Bytes) : Option Nat :=
  if contentLengthName.isPrefixOf line then some (numberOf ((line.drop contentLengthName.length).takeWhile isDigit))
  else none

theorem crlf_ne_nil : crlf ≠ [] := by decide

/-- The number in the first header of that name. -/
def contentLength (header : Bytes) : Option Nat :=
  (segments crlf crlf_ne_nil header).findSome? lengthIn

/-- What a client does: it reads up to the first empty line, takes the content
length, and reads so many bytes of body. -/
def readResponse (s : Bytes) : Option (Bytes × Bytes) := do
  let (header, rest) ← frame kHeaderEnd s
  let n ← contentLength header
  if n ≤ rest.length then some (rest.take n, rest.drop n) else none

def client : ItemReader Bytes UInt8 where
  read := readResponse
  shorter := by
    intro s body rest h
    rw [readResponse] at h
    obtain ⟨⟨header, more⟩, hframe, h⟩ := Option.bind_eq_some_iff.mp h
    obtain ⟨n, _, h⟩ := Option.bind_eq_some_iff.mp h
    split at h
    · obtain ⟨rfl, rfl⟩ : more.take n = body ∧ more.drop n = rest := by simpa using h
      obtain ⟨rfl, hlen⟩ := frame_eq_some hframe
      rw [List.length_append, List.length_drop]
      have hend : kHeaderEnd.length = 4 := rfl
      omega
    · cases h

/-- A response whose fields stay in their lines. -/
structure HeaderSafe (res : HttpResponse) : Prop where
  protocol : res.protocol = HttpServer.protocol
  code : res.responseCode = 200 ∨ res.responseCode = 404
  message : 13 ∉ res.message
  contentType : 13 ∉ res.contentType

theorem isDigit_ofNat {d : Nat} (hd : d < 10) : isDigit (UInt8.ofNat (48 + d)) = true := by
  interval_cases d <;> rfl

theorem isDigit_decimal (n : Nat) : ∀ b ∈ decimal n, isDigit b = true := by
  intro b hb
  obtain ⟨d, hd, rfl⟩ := decimal_digits n b hb
  exact isDigit_ofNat hd

theorem numberOf_decimal (n : Nat) : numberOf (decimal n) = n := by
  induction n using Nat.strongRecOn with
  | ind n ih =>
      have hlast : (UInt8.ofNat (48 + n % 10)).toNat - 48 = n % 10 := by
        rw [UInt8.toNat_ofNat_of_lt' (by simp [UInt8.size]; omega)]
        omega
      rw [decimal_rec, numberOf, List.foldl_append, List.foldl_cons, List.foldl_nil, hlast]
      split
      · simp only [List.foldl_nil]
        omega
      · have hrest := ih (n / 10) (by omega)
        rw [numberOf] at hrest
        rw [hrest]
        omega

def statusLine (res : HttpResponse) : Bytes :=
  res.protocol ++ ascii [' '] ++ decimal res.responseCode.toNat ++ ascii [' '] ++ res.message

def typeLines (res : HttpResponse) : List Bytes :=
  if res.contentType.isEmpty then []
  else [ascii ['C', 'o', 'n', 't', 'e', 'n', 't', '-', 't', 'y', 'p', 'e', ':', ' '] ++ res.contentType]

def lengthLine (res : HttpResponse) : Bytes := contentLengthName ++ decimal res.body.length

def headerLines (res : HttpResponse) : List Bytes := statusLine res :: (typeLines res ++ [lengthLine res])

theorem generateResponseString_eq (res : HttpResponse) :
    res.generateResponseString = block crlf (headerLines res) ++ res.body := by
  unfold generateResponseString headerLines typeLines block lengthLine statusLine contentLengthName
  split
  · simp
  · simp

variable {res : HttpResponse}

theorem decimal_no_cr (n : Nat) : 13 ∉ decimal n := by
  intro h
  have hdigit := isDigit_decimal n 13 h
  revert hdigit
  decide

theorem headerLines_safe (h : res.HeaderSafe) : ∀ line ∈ headerLines res, line ≠ [] ∧ 13 ∉ line := by
  have hname : 13 ∉ contentLengthName := by decide
  have hprotocol : 13 ∉ HttpServer.protocol := by decide
  intro line hline
  rcases List.mem_cons.mp hline with rfl | hline
  · rw [statusLine, h.protocol]
    exact ⟨List.cons_ne_nil _ _, by simp [hprotocol, decimal_no_cr, h.message, ascii]⟩
  · rcases List.mem_append.mp hline with htype | hlength
    · rw [typeLines] at htype
      split at htype
      · cases htype
      · rw [List.mem_singleton.mp htype]
        exact ⟨List.cons_ne_nil _ _, by simp [h.contentType, ascii]⟩
    · rw [List.mem_singleton.mp hlength, lengthLine]
      exact ⟨List.cons_ne_nil _ _, by simp [hname, decimal_no_cr]⟩

theorem lengthIn_lengthLine (res : HttpResponse) : lengthIn (lengthLine res ++ crlf) = some res.body.length := by
  have hend : crlf.takeWhile isDigit = [] := rfl
  rw [lengthIn, lengthLine, List.append_assoc, if_pos (by simp), List.drop_left,
    List.takeWhile_append_of_pos (isDigit_decimal _), hend, List.append_nil, numberOf_decimal]

/-- No other line of a response is taken for the content length. -/
theorem contentLength_block (h : res.HeaderSafe) :
    contentLength (block crlf (headerLines res)) = some res.body.length := by
  have hstatus : lengthIn (statusLine res ++ crlf) = none := by
    rw [statusLine, h.protocol]
    rfl
  have htypes : ∀ line ∈ typeLines res, lengthIn (line ++ crlf) = none := by
    intro line hline
    rw [typeLines] at hline
    split at hline
    · cases hline
    · rw [List.mem_singleton.mp hline]
      rfl
  have hnone : ((typeLines res).map (· ++ crlf)).findSome? lengthIn = none := by
    rw [List.findSome?_eq_none_iff]
    intro line hline
    obtain ⟨line, htype, rfl⟩ := List.mem_map.mp hline
    exact htypes line htype
  have hsegments : segments crlf crlf_ne_nil (block crlf (headerLines res)) =
      (headerLines res).map (· ++ crlf) ++ [crlf] := segments_block fun line hline => (headerLines_safe h line hline).2
  rw [contentLength, hsegments, headerLines, List.map_cons, List.cons_append, List.findSome?_cons, hstatus,
    List.map_append, List.append_assoc, List.findSome?_append, hnone, Option.none_or]
  change List.findSome? lengthIn [lengthLine res ++ crlf, crlf] = _
  rw [List.findSome?_cons, lengthIn_lengthLine]

theorem readResponse_generated (h : res.HeaderSafe) (rest : Bytes) :
    readResponse (res.generateResponseString ++ rest) = some (res.body, rest) := by
  have hlf : (13 : UInt8) ∉ [10] := by decide
  have hframe : frame kHeaderEnd (block crlf (headerLines res) ++ (res.body ++ rest)) =
      some (block crlf (headerLines res), res.body ++ rest) :=
    frame_block hlf (headerLines_safe h) (List.cons_ne_nil _ _) _
  rw [readResponse, generateResponseString_eq, List.append_assoc, hframe, Option.bind_eq_bind, Option.bind_some]
  dsimp only
  rw [contentLength_block h, Option.bind_eq_bind, Option.bind_some, if_pos (by simp), List.take_left, List.drop_left]

end HttpResponse

namespace HttpServer

open HttpResponse Separated

theorem ok_no_cr : 13 ∉ ascii "OK".toList := by decide

theorem contentTypeOf_no_cr (extension : Bytes) : 13 ∉ contentTypeOf extension := by
  unfold contentTypeOf
  split_ifs <;> decide

theorem processFileRequest_safe {fs : FileSystem} {calls : ReadCalls} {uri baseDir : Bytes} {res : HttpResponse}
    (huri : uri.take 8 = staticPrefix) (h : processFileRequest fs calls uri baseDir = .ok res) : res.HeaderSafe := by
  obtain ⟨name, hname⟩ := requestedName_ok h
  -- the path is not empty, since it starts as the URI does
  obtain ⟨fileName, rfl⟩ : ∃ fileName, name = some fileName := by
    obtain ⟨back, hsplit, hback⟩ := upTo_split 63 (uri.drop 8)
    rw [← List.take_append_drop 8 uri, huri, hsplit] at hname
    have hvalue := requestedName_static (not_mem_upTo 63 _) hback (short_of_requestedName hname)
    exact ⟨_, Except.ok.inj (hname.symm.trans hvalue)⟩
  obtain ⟨extension, escaped, heq⟩ := processFileRequest_eq hname
  rw [heq] at h
  obtain ⟨found, _, h⟩ := Run.bind_eq_ok.mp h
  cases found with
  | none =>
      obtain rfl := Except.ok.inj h
      have hmessage : 13 ∉ ascii "Not Found".toList := by decide
      exact ⟨rfl, .inr rfl, hmessage, List.not_mem_nil⟩
  | some str =>
      obtain rfl := Except.ok.inj h
      exact ⟨rfl, .inl rfl, ok_no_cr, contentTypeOf_no_cr extension⟩

theorem processRequest_safe {server : Resources} {req : HttpRequest} {res : HttpResponse}
    (h : processRequest server req = .ok res) : res.HeaderSafe := by
  rw [processRequest, startsWithStatic_eq, Run.ok_bind] at h
  split at h
  · next hstatic => exact processFileRequest_safe (of_decide_eq_true hstatic) h
  · obtain ⟨parser, _, h⟩ := Run.bind_eq_ok.mp h
    have hfound : ∃ found, res = ⟨protocol, 200, ascii "OK".toList, [], searchPage ++ found⟩ := by
      dsimp only at h
      split at h
      · exact ⟨[], (Except.ok.inj h).symm⟩
      · obtain ⟨found, _, h⟩ := Run.bind_eq_ok.mp h
        exact ⟨found, (Except.ok.inj h).symm⟩
    obtain ⟨found, rfl⟩ := hfound
    exact ⟨rfl, .inl rfl, ok_no_cr, List.not_mem_nil⟩

/-- Every response has a protocol and one of two codes, and a client that reads
any number of them finds each body. -/
theorem responses_framed (ress : List HttpResponse)
    (h : ∀ res ∈ ress, ∃ server req, processRequest server req = .ok res) :
    (∀ res ∈ ress, res.protocol = ascii "HTTP/1.1".toList ∧ (res.responseCode = 200 ∨ res.responseCode = 404)) ∧
      client.readAll (ress.flatMap generateResponseString) = (ress.map HttpResponse.body, []) := by
  have hsafe : ∀ res ∈ ress, res.HeaderSafe := by
    intro res hres
    obtain ⟨server, req, hrun⟩ := h res hres
    exact processRequest_safe hrun
  constructor
  · intro res hres
    exact ⟨(hsafe res hres).protocol, (hsafe res hres).code⟩
  · exact client.readAll_flatMap fun res hres rest => readResponse_generated (hsafe res hres) rest

/-- The body of the first response looks like the end of a header block. -/
theorem responses_framed_two : ∃ file page : HttpResponse, file.body = crlf ++ crlf ∧ page.body = searchPage ∧
    client.readAll ([file, page].flatMap generateResponseString) = ([crlf ++ crlf, searchPage], []) := by
  have hanswer := processFileRequest_names (by simp [ReadCalls.Unchanging, OneFile.calls])
    (@OneFile.names (crlf ++ crlf))
  rw [if_pos (by decide)] at hanswer
  obtain ⟨file, hfile, _, hbody⟩ := hanswer
  have hrun : processRequest ⟨mergeSorter _, [], OneFile.baseDir, OneFile.fileSystem (crlf ++ crlf), OneFile.calls⟩
      ⟨OneFile.uri, ∅⟩ = .ok file := hfile
  have hpage : processRequest ⟨mergeSorter _, [], OneFile.baseDir, OneFile.fileSystem [], OneFile.calls⟩
      ⟨ascii ['/'], ∅⟩ = .ok ⟨protocol, 200, ascii "OK".toList, [], searchPage ++ []⟩ := rfl
  rw [List.append_nil] at hpage
  generalize hquery : HttpResponse.mk protocol 200 (ascii "OK".toList) [] searchPage = page at hpage
  have hread := (responses_framed [file, page] (by
    intro res hres
    rcases List.mem_cons.mp hres with rfl | hres
    · exact ⟨_, _, hrun⟩
    · rw [List.mem_singleton.mp hres]
      exact ⟨_, _, hpage⟩)).2
  have hfound : file.body = crlf ++ crlf := hbody
  have hfoundPage : page.body = searchPage := by rw [← hquery]
  refine ⟨file, page, hfound, hfoundPage, hread.trans ?_⟩
  rw [List.map_cons, List.map_singleton, hfound, hfoundPage]

end HttpServer

end SearchEngine
