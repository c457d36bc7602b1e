import SearchEngine.HttpConnection

namespace SearchEngine.HttpServer

open Framing HttpConnection

inductive Event
  | response (bytes : Bytes)
  | closed
  deriving DecidableEq

/-- The descriptor of the connection: what is left to read from it, or none
once it has been closed. -/
abbrev Descriptor := Option Socket

def getNextRequest (conn : HttpConnection) : Descriptor → Option HttpRequest × Descriptor
  | some socket =>
      let (req, _, socket) := conn.getNextRequest socket
      (req, some socket)
  | none => ((conn.getNextRequest [.failed]).1, none)

def writeResponse (res : HttpResponse) : Descriptor → Bool × List Event
  | some _ => (true, [.response res.generateResponseString])
  | none => (false, [])

/-- The destructor of HttpConnection. -/
def close : Descriptor → List Event
  | some _ => [.closed]
  | none => []

/-- The body of the loop in HttpServer_ThrFn: what happens to the client, and
whether the loop is done. The connection object dies with the iteration. -/
def iteration (processRequest : HttpRequest → HttpResponse) (clientFd : Descriptor) :
    List Event × Bool :=
  match getNextRequest HttpConnection.init clientFd with
  | (none, fd) => (close fd, true)
  | (some req, fd) =>
      match writeResponse (processRequest req) fd with
      | (false, events) => (events ++ close fd, true)
      | (true, events) =>
          (events ++ close fd,
            req.getHeaderValue (ascii ['C', 'o', 'n', 'n', 'e', 'c', 't', 'i', 'o', 'n']) ==
              ascii ['c', 'l', 'o', 's', 'e'])

theorem iteration_closed (processRequest : HttpRequest → HttpResponse) :
    iteration processRequest none = ([], true) := by
  have hfail : (getNextRequest HttpConnection.init none).1 = none := by
    have hread : readHeaderEnd [] [.failed] = (none, [], []) := by
      rw [readHeaderEnd]
      rfl
    simp [getNextRequest, HttpConnection.getNextRequest, HttpConnection.init, hread]
  cases h : getNextRequest HttpConnection.init none with
  | mk req fd =>
      obtain rfl : req = none := by rw [h] at hfail; exact hfail
      obtain rfl : fd = none := by simp only [getNextRequest, Prod.mk.injEq] at h; exact h.2.symm
      simp [iteration, h, close]

/-- The loop. The descriptor number stays the same, but after an iteration it
is closed. -/
def thrFn (processRequest : HttpRequest → HttpResponse) (clientFd : Descriptor) : List Event :=
  match _h : iteration processRequest clientFd with
  | (events, true) => events
  | (events, false) => events ++ thrFn processRequest none
termination_by if clientFd.isSome then 1 else 0
decreasing_by
  cases clientFd with
  | some _ => simp
  | none => simp [iteration_closed] at _h

theorem thrFn_closed (processRequest : HttpRequest → HttpResponse) : thrFn processRequest none = [] := by
  rw [thrFn]
  split
  · next h => simp_all [iteration_closed]
  · next h => simp [iteration_closed] at h

theorem thrFn_eq (processRequest : HttpRequest → HttpResponse) (socket : Socket) (h : socket.Sound) :
    thrFn processRequest (some socket) =
      ((segmentsOf socket.stream).take 1).map (fun seg =>
        .response (processRequest (parseRequest seg)).generateResponseString) ++ [.closed] := by
  obtain ⟨conn', socket', _, hspec⟩ := getNextRequest_spec HttpConnection.init socket h
  simp only [HttpConnection.init, List.nil_append] at hspec
  cases hframe : frame kHeaderEnd socket.stream with
  | none =>
      simp only [hframe] at hspec
      have hiter : iteration processRequest (some socket) = ([.closed], true) := by
        simp [iteration, getNextRequest, HttpConnection.init, hspec.1, close]
      rw [thrFn, segmentsOf_none hframe]
      split
      · next heq => simpa [hiter, eq_comm] using heq
      · next heq => simp [hiter] at heq
  | some p =>
      obtain ⟨seg, rest⟩ := p
      simp only [hframe] at hspec
      have hiter : (iteration processRequest (some socket)).1 =
          [.response (processRequest (parseRequest seg)).generateResponseString, .closed] := by
        simp [iteration, getNextRequest, HttpConnection.init, hspec.1, writeResponse, close]
      rw [thrFn, segmentsOf_some hframe]
      split
      · next heq =>
        rw [heq] at hiter
        exact hiter
      · next heq =>
        rw [heq] at hiter
        rw [thrFn_closed, List.append_nil]
        exact hiter

/-- A request as a client sends it: its only header end is its end. -/
structure ClientRequest where
  bytes : Bytes
  wellFormed : frame kHeaderEnd bytes = some (bytes, [])

namespace ClientRequest

def parsed (r : ClientRequest) : HttpRequest := parseRequest r.bytes

def closes (r : ClientRequest) : Bool :=
  r.parsed.getHeaderValue (ascii ['c', 'o', 'n', 'n', 'e', 'c', 't', 'i', 'o', 'n']) ==
    ascii ['c', 'l', 'o', 's', 'e']

/-- The requests up to and including the first that asks to close. -/
def upToClose : List ClientRequest → List ClientRequest
  | [] => []
  | r :: rs => if r.closes then [r] else r :: upToClose rs

end ClientRequest

open ClientRequest

/-- What a client of a persistent connection is to see. -/
def persistent (processRequest : HttpRequest → HttpResponse) (reqs : List ClientRequest) : List Event :=
  (upToClose reqs).map (fun r => .response (processRequest r.parsed).generateResponseString) ++ [.closed]

theorem segmentsOf_requests (reqs : List ClientRequest) :
    segmentsOf (reqs.flatMap ClientRequest.bytes) = reqs.map ClientRequest.bytes := by
  induction reqs with
  | nil => exact segmentsOf_none (by decide)
  | cons r rs ih =>
      rw [List.flatMap_cons, segmentsOf_some (frame_append r.wellFormed _), List.nil_append, ih]
      rfl

theorem length_upToClose_le_one (reqs : List ClientRequest) :
    (upToClose reqs).length ≤ 1 ↔ reqs.length ≤ 1 ∨ ∃ r ∈ reqs.head?, r.closes = true := by
  match reqs with
  | [] => simp [upToClose]
  | [r] => by_cases h : r.closes <;> simp [upToClose, h]
  | r :: r' :: rs => by_cases h : r.closes <;> by_cases h' : r'.closes <;> simp [upToClose, h, h']

theorem thrFn_requests (processRequest : HttpRequest → HttpResponse) (reqs : List ClientRequest)
    (socket : Socket) (h : socket.Sound) (hstream : socket.stream = reqs.flatMap ClientRequest.bytes) :
    thrFn processRequest (some socket) =
      ((upToClose reqs).take 1).map (fun r => .response (processRequest r.parsed).generateResponseString) ++
        [.closed] := by
  have htake : (upToClose reqs).take 1 = reqs.take 1 := by
    cases reqs with
    | nil => rfl
    | cons r rs => by_cases hr : r.closes <;> simp [upToClose, hr]
  rw [thrFn_eq processRequest socket h, hstream, segmentsOf_requests, htake, ← List.map_take, List.map_map]
  rfl

/-- The worker follows the protocol of persistent connections exactly when
the protocol asks for no second response. -/
theorem thrFn_persistent_iff (processRequest : HttpRequest → HttpResponse) (reqs : List ClientRequest)
    (socket : Socket) (h : socket.Sound) (hstream : socket.stream = reqs.flatMap ClientRequest.bytes) :
    thrFn processRequest (some socket) = persistent processRequest reqs ↔
      reqs.length ≤ 1 ∨ ∃ r ∈ reqs.head?, r.closes = true := by
  rw [← length_upToClose_le_one, thrFn_requests processRequest reqs socket h hstream, persistent,
    List.append_left_inj]
  constructor
  · intro heq
    have hlen := congrArg List.length heq
    simp only [List.length_map, List.length_take] at hlen
    omega
  · intro hle
    rw [List.take_of_length_le hle]

def getA : ClientRequest :=
  ⟨ascii ['G', 'E', 'T', ' ', '/', 'a', ' ', 'H', 'T', 'T', 'P', '/', '1', '.', '1', '\r', '\n', '\r', '\n'],
    by decide⟩

def getB : ClientRequest :=
  ⟨ascii ['G', 'E', 'T', ' ', '/', 'b', ' ', 'H', 'T', 'T', 'P', '/', '1', '.', '1', '\r', '\n', '\r', '\n'],
    by decide⟩

def echoUri (req : HttpRequest) : HttpResponse :=
  ⟨ascii ['H', 'T', 'T', 'P', '/', '1', '.', '1'], 200, ascii ['O', 'K'], [], req.uri⟩

theorem thrFn_persistent_iff_single :
    thrFn echoUri (some [.data ⟨getA.bytes, by decide, by decide⟩]) = persistent echoUri [getA] :=
  (thrFn_persistent_iff echoUri [getA] _ (by simp [Socket.Sound]) (by rfl)).mpr (.inl (by decide))

/-- Two pipelined requests in one read: the second gets no response. -/
theorem thrFn_pipelined :
    thrFn echoUri (some [.data ⟨getA.bytes ++ getB.bytes, by decide, by decide⟩]) ≠
      persistent echoUri [getA, getB] := by
  rw [thrFn_requests echoUri [getA, getB] _ (by simp [Socket.Sound]) (by rfl)]
  intro h
  have hlen := congrArg List.length h
  have hclose : (upToClose [getA, getB]).length = 2 := by decide
  simp only [persistent, List.length_append, List.length_map, List.length_take, hclose] at hlen
  omega

end SearchEngine.HttpServer
