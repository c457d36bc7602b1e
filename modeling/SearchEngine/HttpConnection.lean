import SearchEngine.BoostStrings
import SearchEngine.HttpRequest
import SearchEngine.Library.Framing

namespace SearchEngine

open Framing

/-- What one read from a socket returns: at least one byte, and no more than
the 1024 that were asked for. -/
structure Chunk where
  bytes : Bytes
  nonempty : bytes ≠ []
  fits : bytes.length ≤ 1024

/-- The results of the successive reads from a socket. After the last of them
the peer has closed, and read returns 0. -/
inductive ReadEvent
  | data (c : Chunk)
  | interrupted
  | failed

abbrev Socket := List ReadEvent

namespace Socket

def stream (socket : Socket) : Bytes :=
  socket.flatMap fun
    | .data c => c.bytes
    | _ => []

/-- Every read of the connection succeeds, perhaps after interruptions. -/
def Sound (socket : Socket) : Prop := ReadEvent.failed ∉ socket

end Socket

/-- The bytes read. There are none at the end of the stream and on failure. -/
def wrappedRead : Socket → Bytes × Socket
  | [] => ([], [])
  | .interrupted :: rest => wrappedRead rest
  | .failed :: rest => ([], rest)
  | .data c :: rest => (c.bytes, rest)

theorem wrappedRead_shorter {socket rest : Socket} {b : UInt8} {bs : Bytes}
    (h : wrappedRead socket = (b :: bs, rest)) : rest.length < socket.length := by
  induction socket with
  | nil => cases h
  | cons e socket ih =>
      cases e with
      | data c =>
          obtain ⟨_, rfl⟩ : c.bytes = b :: bs ∧ socket = rest := by simpa [wrappedRead] using h
          exact Nat.lt_succ_self _
      | interrupted => exact Nat.lt_succ_of_lt (ih h)
      | failed => simp [wrappedRead] at h

structure HttpConnection where
  buffer : Bytes

namespace HttpConnection

def kHeaderEnd : Bytes := [13, 10, 13, 10]

def init : HttpConnection := ⟨[]⟩

/-- One line of the header block. A line without a colon is skipped. -/
def parseHeaderLine (req : HttpRequest) (line : Bytes) : HttpRequest :=
  let line := Boost.trimRight line
  if line.isEmpty then req
  else
    match Boost.split (fun b => b == 58) line with
    | name :: value :: _ => req.addHeader (Boost.toLower name) (Boost.trimLeft value)
    | _ => req

def parseRequest (request : Bytes) : HttpRequest :=
  let req : HttpRequest := ⟨ascii ['/'], ∅⟩
  let isLineEnd (b : UInt8) : Bool := b == 13 || b == 10
  match Boost.split isLineEnd (Boost.compress isLineEnd request) with
  | [] => req
  | first :: lines =>
      let req :=
        match Boost.split (fun b => b == 32) (Boost.compress (fun b => b == 32) first) with
        | _ :: uri :: _ => { req with uri := uri }
        | _ => req
      lines.foldl parseHeaderLine req

/-- The loop of GetNextRequest: read until the buffer has a header end. -/
def readHeaderEnd (buffer : Bytes) (socket : Socket) : Option Nat × Bytes × Socket :=
  match find kHeaderEnd buffer with
  | some headerEndPos => (some headerEndPos, buffer, socket)
  | none =>
      match _h : wrappedRead socket with
      | ([], rest) => (none, buffer, rest)
      | (b :: bs, rest) => readHeaderEnd (buffer ++ b :: bs) rest
termination_by socket.length
decreasing_by exact wrappedRead_shorter _h

/-- The next request, or none when GetNextRequest returns false. -/
def getNextRequest (conn : HttpConnection) (socket : Socket) :
    Option HttpRequest × HttpConnection × Socket :=
  match readHeaderEnd conn.buffer socket with
  | (none, buffer, socket) => (none, ⟨buffer⟩, socket)
  | (some headerEndPos, buffer, socket) =>
      let splitPos := headerEndPos + kHeaderEnd.length
      (some (parseRequest (buffer.take splitPos)), ⟨buffer.drop splitPos⟩, socket)

theorem wrappedRead_spec {socket : Socket} (h : socket.Sound) :
    (wrappedRead socket).1 ++ (wrappedRead socket).2.stream = socket.stream ∧
    (wrappedRead socket).2.Sound ∧ ((wrappedRead socket).1 = [] → socket.stream = []) := by
  induction socket with
  | nil => exact ⟨rfl, h, fun _ => rfl⟩
  | cons e socket ih =>
      have hrest : Socket.Sound socket := fun hm => h (List.mem_cons_of_mem e hm)
      cases e with
      | data c => exact ⟨rfl, hrest, fun hnil => absurd hnil c.nonempty⟩
      | interrupted => exact ih hrest
      | failed => exact absurd List.mem_cons_self h

/-- The buffer and the unread bytes make up what is left of the stream. -/
theorem readHeaderEnd_spec (buffer : Bytes) (socket : Socket) (h : socket.Sound) :
    ∃ buffer' socket', readHeaderEnd buffer socket = (find kHeaderEnd buffer', buffer', socket') ∧
      buffer' ++ socket'.stream = buffer ++ socket.stream ∧ socket'.Sound ∧
      (find kHeaderEnd buffer' = none → socket'.stream = []) := by
  fun_induction readHeaderEnd buffer socket with
  | case1 buffer socket pos hpos => exact ⟨buffer, socket, by rw [hpos], rfl, h, by simp [hpos]⟩
  | case2 buffer socket hpos rest hread =>
      obtain ⟨hstream, hsound, hend⟩ := wrappedRead_spec h
      rw [hread] at hstream hsound hend
      have hrest : rest.stream = [] := hstream.trans (hend rfl)
      exact ⟨buffer, rest, by rw [hpos], by rw [← hstream]; rfl, hsound, fun _ => hrest⟩
  | case3 buffer socket hpos b bs rest hread ih =>
      obtain ⟨hstream, hsound, _⟩ := wrappedRead_spec h
      rw [hread] at hstream hsound
      obtain ⟨buffer', socket', heq, hsame, hrest⟩ := ih hsound
      exact ⟨buffer', socket', heq, by rw [hsame, ← hstream, List.append_assoc], hrest⟩

theorem getNextRequest_spec (conn : HttpConnection) (socket : Socket) (h : socket.Sound) :
    ∃ conn' socket', socket'.Sound ∧
      match frame kHeaderEnd (conn.buffer ++ socket.stream) with
      | none => getNextRequest conn socket = (none, conn', socket') ∧
          conn'.buffer ++ socket'.stream = conn.buffer ++ socket.stream
      | some (seg, rest) => getNextRequest conn socket = (some (parseRequest seg), conn', socket') ∧
          conn'.buffer ++ socket'.stream = rest := by
  obtain ⟨buffer', socket', heq, hsame, hsound, hend⟩ := readHeaderEnd_spec conn.buffer socket h
  rw [← hsame]
  cases hfind : find kHeaderEnd buffer' with
  | none =>
      have hnil := hend hfind
      refine ⟨⟨buffer'⟩, socket', hsound, ?_⟩
      rw [hnil, List.append_nil, frame, hfind]
      exact ⟨by simp [getNextRequest, heq, hfind], by simp⟩
  | some pos =>
      have hframe := frame_append (t := socket'.stream) (by rw [frame, hfind]; rfl)
      refine ⟨⟨buffer'.drop (pos + kHeaderEnd.length)⟩, socket', hsound, ?_⟩
      rw [hframe]
      exact ⟨by simp [getNextRequest, heq, hfind], rfl⟩

def requests : Nat → HttpConnection → Socket → List (Option HttpRequest)
  | 0, _, _ => []
  | k + 1, conn, socket =>
      let (req, conn, socket) := getNextRequest conn socket
      req :: requests k conn socket

theorem kHeaderEnd_ne_nil : kHeaderEnd ≠ [] := by decide

/-- The segments of a stream, each up to and including a header end. -/
def segmentsOf (s : Bytes) : List Bytes := segments kHeaderEnd kHeaderEnd_ne_nil s

theorem segmentsOf_none {s : Bytes} (h : frame kHeaderEnd s = none) : segmentsOf s = [] :=
  segments_of_none h

theorem segmentsOf_some {s seg rest : Bytes} (h : frame kHeaderEnd s = some (seg, rest)) :
    segmentsOf s = seg :: segmentsOf rest :=
  segments_of_some h

theorem requests_eq (k : Nat) (conn : HttpConnection) (socket : Socket) (h : socket.Sound) :
    requests k conn socket = (List.range k).map fun i =>
      ((segmentsOf (conn.buffer ++ socket.stream))[i]?).map parseRequest := by
  induction k generalizing conn socket with
  | zero => rfl
  | succ k ih =>
      obtain ⟨conn', socket', hsound, hspec⟩ := getNextRequest_spec conn socket h
      rw [List.range_succ_eq_map, List.map_cons, List.map_map]
      cases hframe : frame kHeaderEnd (conn.buffer ++ socket.stream) with
      | none =>
          simp only [hframe] at hspec
          simp only [requests, hspec.1, ih conn' socket' hsound, hspec.2, segmentsOf_none hframe]
          rfl
      | some p =>
          obtain ⟨seg, rest⟩ := p
          simp only [hframe] at hspec
          simp only [requests, hspec.1, ih conn' socket' hsound, hspec.2, segmentsOf_some hframe]
          rfl

/-- Framing is independent of chunking: the i-th call returns the i-th
segment of the stream, parsed, and false when there is no such segment. -/
theorem requests_independent_of_chunking (socket : Socket) (h : socket.Sound) (k : Nat) :
    (requests k init socket = (List.range k).map fun i =>
      ((segmentsOf socket.stream)[i]?).map parseRequest) ∧
    ∀ socket' : Socket, socket'.Sound → socket'.stream = socket.stream →
      requests k init socket' = requests k init socket := by
  refine ⟨requests_eq k init socket h, fun socket' h' hsame => ?_⟩
  rw [requests_eq k init socket h, requests_eq k init socket' h', hsame]

theorem requests_independent_of_chunking_straddling :
    requests 2 init [.data ⟨ascii ['G', ' ', '/', 'a', '\r', '\n', '\r'], by decide, by decide⟩, .interrupted,
      .data ⟨ascii ['\n', 'G', ' ', '/', 'b', '\r', '\n', '\r', '\n'], by decide, by decide⟩] =
    [some (parseRequest (ascii ['G', ' ', '/', 'a', '\r', '\n', '\r', '\n'])),
      some (parseRequest (ascii ['G', ' ', '/', 'b', '\r', '\n', '\r', '\n']))] := by
  have h := (requests_independent_of_chunking
    [.data ⟨ascii ['G', ' ', '/', 'a', '\r', '\n', '\r'], by decide, by decide⟩, .interrupted,
      .data ⟨ascii ['\n', 'G', ' ', '/', 'b', '\r', '\n', '\r', '\n'], by decide, by decide⟩]
    (by simp [Socket.Sound]) 2).1
  have hfirst : segmentsOf (ascii ['G', ' ', '/', 'a', '\r', '\n', '\r', '\n', 'G', ' ', '/', 'b', '\r', '\n',
      '\r', '\n']) = ascii ['G', ' ', '/', 'a', '\r', '\n', '\r', '\n'] ::
        segmentsOf (ascii ['G', ' ', '/', 'b', '\r', '\n', '\r', '\n']) :=
    segmentsOf_some (by decide)
  have hsecond : segmentsOf (ascii ['G', ' ', '/', 'b', '\r', '\n', '\r', '\n']) =
      ascii ['G', ' ', '/', 'b', '\r', '\n', '\r', '\n'] :: segmentsOf [] := segmentsOf_some (by decide)
  rw [hsecond] at hfirst
  rw [h]
  change (List.range 2).map (fun i => ((segmentsOf (ascii ['G', ' ', '/', 'a', '\r', '\n', '\r', '\n', 'G', ' ',
    '/', 'b', '\r', '\n', '\r', '\n']))[i]?).map parseRequest) = _
  rw [hfirst]
  rfl

end HttpConnection

end SearchEngine
