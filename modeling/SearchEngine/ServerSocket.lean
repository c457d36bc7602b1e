import SearchEngine.Library.Handles
import SearchEngine.Library.Transition
import SearchEngine.HttpRequest

/-! The listening socket of the server over its whole life. -/

namespace SearchEngine

open Handles Transition

inductive AiFamily
  | AF_INET
  | AF_INET6
  | AF_UNSPEC
  | other (value : Int)
  deriving DecidableEq, Repr

inductive Syscall
  | setsockopt
  | bind
  | listen
  | accept
  | connect
  | getsockname
  | close
  deriving DecidableEq, Repr

/-- The descriptors of the process. -/
abbrev Fds := Ledger Int Syscall

/-- One of the addresses that getaddrinfo returns, and how the calls for it
end. A failing call to socket returns no descriptor. -/
structure AddrInfo where
  aiFamily : AiFamily
  socket : Option Int
  setsockopt : Bool
  bind : Bool

/-- What can be learned of the two ends of a connection. A name that is missing
cannot be looked up. -/
structure Peer where
  addr : Bytes
  port : UInt16
  host : Option Bytes
  serverAddr : Bytes
  serverHost : Option Bytes

/-- EINTR, EAGAIN and EWOULDBLOCK are interruptions, all other errors are
failures. -/
inductive AcceptResult
  | interrupted
  | failed
  | connected (fd : Int) (peer : Peer)

/-- The output parameters of Accept. -/
structure Accepted where
  acceptedFd : Var Int
  clientAddr : Bytes
  clientPort : UInt16
  clientDnsName : Bytes
  serverAddr : Bytes
  serverDnsName : Bytes

structure ServerSocket where
  port : UInt16
  listenSockFd : Var Int
  sockFamily : Option AiFamily

namespace ServerSocket

/-- The value -1 of a descriptor. -/
def closed : Var Int := ⟨-1, none⟩

def new (port : UInt16) : ServerSocket := ⟨port, closed, none⟩

/-- The kernel returns a descriptor that is not open. -/
def socket (fds : Fds) : Option Int → Option (Var Int × Fds)
  | none => some (closed, fds)
  | some fd => if 0 ≤ fd ∧ fds.table fd = none then some (⟨fd, some fds.issued⟩, fds.acquire fd) else none

/-- A call on a descriptor that is not open fails. -/
def call (fds : Fds) (kind : Syscall) (fd : Var Int) (ok : Bool) : Option (Bool × Fds) :=
  if fds.table fd.name = none ∧ ok = true then none else some (ok, fds.log kind fd)

/-- The loop over the addresses. Where setsockopt fails, fd keeps the number of
the descriptor that has been closed. -/
def bindLoop (fd : Var Int) (fds : Fds) : List AddrInfo → Option (Var Int × Option AiFamily × Fds)
  | [] => some (fd, none, fds)
  | rp :: rest => do
      let (fd, fds) ← socket fds rp.socket
      if fd.name = -1 then bindLoop closed fds rest
      else
        let (configured, fds) ← call fds .setsockopt fd rp.setsockopt
        if configured = false then bindLoop fd (fds.release .close fd) rest
        else
          let (bound, fds) ← call fds .bind fd rp.bind
          if bound = true then some (fd, some rp.aiFamily, fds)
          else bindLoop closed (fds.release .close fd) rest

/-- How the calls of BindAndListen end. -/
structure BindCalls where
  getaddrinfo : AiFamily → Bytes → Option (List AddrInfo)
  listen : Bool

def reasonable (aiFamily : AiFamily) : Bool :=
  aiFamily = .AF_INET || aiFamily = .AF_INET6 || aiFamily = .AF_UNSPEC

/-- The decimal of the port. -/
def service (port : UInt16) : Bytes := HttpResponse.decimal port.toNat

def bindAndListen (s : ServerSocket) (aiFamily : AiFamily) (calls : BindCalls) (fds : Fds) :
    Option (Bool × ServerSocket × Fds) :=
  if reasonable aiFamily = false then some (false, s, fds)
  else
    match calls.getaddrinfo aiFamily (service s.port) with
    | none => some (false, s, fds)
    | some result => do
        let (fd, family, fds) ← bindLoop closed fds result
        let s := { s with sockFamily := family.or s.sockFamily }
        if fd.name = -1 then some (false, s, fds)
        else
          let (ok, fds) ← call fds .listen fd calls.listen
          if ok = false then some (false, s, fds.release .close fd)
          else some (true, { s with listenSockFd := fd }, fds)

/-- The loop around accept. A connection has a descriptor of its own. -/
def acceptLoop (fd : Var Int) (fds : Fds) : List AcceptResult → Option (Option (Var Int × Peer) × Fds)
  | [] => none
  | .interrupted :: rest => if fds.table fd.name = none then none else acceptLoop fd (fds.log .accept fd) rest
  | .failed :: _ => some (none, (fds.log .accept fd).release .close fd)
  | .connected client peer :: _ =>
      if fds.table fd.name = none ∨ client < 0 ∨ fds.table client ≠ none then none
      else some (some (⟨client, some fds.issued⟩, peer), (fds.log .accept fd).acquire client)

def accept (s : ServerSocket) (results : List AcceptResult) (fds : Fds) : Option (Option Accepted × Fds) := do
  match ← acceptLoop s.listenSockFd fds results with
  | (none, fds) => some (none, fds)
  | (some (client, peer), fds) =>
      if s.sockFamily ≠ some .AF_INET ∧ s.sockFamily ≠ some .AF_INET6 then some (none, fds.release .close client)
      else
        match peer.host with
        | none => some (none, fds.release .close client)
        | some host =>
            let fds := fds.log .getsockname client
            some (some ⟨client, peer.addr, peer.port, host, peer.serverAddr, peer.serverHost.getD []⟩,
              fds.handOver client.ticket)

/-- The destructor. -/
def destroy (s : ServerSocket) (fds : Fds) : Fds :=
  if s.listenSockFd.name ≠ -1 then fds.release .close s.listenSockFd else fds

/-- The process, with the connections that Accept has returned. The socket is
missing once it has been destroyed. -/
structure Process where
  socket : Option ServerSocket
  fds : Fds
  accepted : List Accepted

/-- What others do, with descriptors for which the socket does not answer. -/
inductive Other
  | opens (fd : Int)
  | closes (fd : Int)

/-- The calls of the methods, and what others do in between. -/
inductive Action
  | bindAndListen (aiFamily : AiFamily) (calls : BindCalls)
  | accept (results : List AcceptResult)
  | destroy
  | other (o : Other)

namespace Process

def init (port : UInt16) : Process := ⟨some (new port), Ledger.init, []⟩

def step (w : Process) : Action → Option Process
  | .bindAndListen aiFamily calls => do
      let s ← w.socket
      let (_, s, fds) ← s.bindAndListen aiFamily calls w.fds
      some { w with socket := some s, fds := fds }
  | .accept results => do
      let s ← w.socket
      let (accepted, fds) ← s.accept results w.fds
      some { w with fds := fds, accepted := w.accepted ++ accepted.toList }
  | .destroy => do
      let s ← w.socket
      some { w with socket := none, fds := s.destroy w.fds }
  | .other (.opens fd) => if 0 ≤ fd ∧ w.fds.table fd = none then some { w with fds := w.fds.acquireOther fd } else none
  | .other (.closes fd) =>
      if ∃ t ∈ w.fds.table fd, t ∉ w.fds.own then some { w with fds := w.fds.releaseOther fd } else none

/-- The listening descriptor of the socket. -/
def held (w : Process) : Option Ticket := w.socket.bind fun s => s.listenSockFd.ticket

/-- No call of the socket went to a descriptor other than its own, and it has
left none open besides the listening one. -/
def Sound (w : Process) : Prop := w.fds.Sound w.held

end Process

theorem socket_some {fds fds' : Fds} {r : Option Int} {fd : Var Int} (h : socket fds r = some (fd, fds')) :
    r = none ∧ fd = closed ∧ fds' = fds ∨
      ∃ n, r = some n ∧ 0 ≤ n ∧ fds.table n = none ∧ fd = ⟨n, some fds.issued⟩ ∧ fds' = fds.acquire n := by
  cases r with
  | none =>
      obtain ⟨rfl, rfl⟩ := Prod.mk.inj (Option.some.inj h)
      exact .inl ⟨rfl, rfl, rfl⟩
  | some n =>
      simp only [socket, Option.ite_none_right_eq_some] at h
      obtain ⟨⟨hn, hfree⟩, h⟩ := h
      obtain ⟨rfl, rfl⟩ := Prod.mk.inj (Option.some.inj h)
      exact .inr ⟨n, rfl, hn, hfree, rfl, rfl⟩

theorem call_some {fds fds' : Fds} {kind : Syscall} {fd : Var Int} {ok b : Bool}
    (h : call fds kind fd ok = some (b, fds')) :
    b = ok ∧ fds' = fds.log kind fd ∧ (fds.table fd.name = none → ok = false) := by
  simp only [call, Option.ite_none_left_eq_some, not_and, Bool.not_eq_true] at h
  obtain ⟨hopen, h⟩ := h
  obtain ⟨rfl, rfl⟩ := Prod.mk.inj (Option.some.inj h)
  exact ⟨rfl, rfl, hopen⟩

/-- What a variable holds that got a new descriptor. -/
structure Got (h fds : Fds) (fd : Var Int) (t : Ticket) : Prop where
  adds : h.Adds fds (some t)
  new : h.issued ≤ t
  ticket : fd.ticket = some t
  natural : 0 ≤ fd.name
  opened : fds.table fd.name = some t
  own : t ∈ fds.own

/-- A number that no descriptor has any more. -/
def Dead (fd : Var Int) (fds : Fds) : Prop := 0 ≤ fd.name ∧ fds.table fd.name = none

theorem ne_minus_one {n : Int} (h : 0 ≤ n) : n ≠ -1 := by omega

section

variable {h fds fds' : Fds} {fd fd' : Var Int} {t : Ticket}

theorem got_acquire (ha : h.Adds fds none) {n : Int} (hn : 0 ≤ n) (hfree : fds.table n = none) :
    Got h (fds.acquire n) ⟨n, some fds.issued⟩ fds.issued where
  adds := ha.acquire hfree
  new := ha.issued
  ticket := rfl
  natural := hn
  opened := Ledger.acquire_self
  own := List.mem_cons_self ..

theorem Got.log (hg : Got h fds fd t) (kind : Syscall) : Got h (fds.log kind fd) fd t :=
  ⟨hg.adds.log kind hg.ticket hg.opened, hg.new, hg.ticket, hg.natural, hg.opened, hg.own⟩

theorem Got.close (hg : Got h fds fd t) (hw : h.WellFormed) :
    h.Adds (fds.release .close fd) none ∧ Dead fd (fds.release .close fd) :=
  ⟨hg.adds.release hw hg.new hg.ticket hg.opened, hg.natural, Function.update_self ..⟩

end

end ServerSocket

namespace AddrInfo

def Binds (rp : AddrInfo) : Prop := rp.socket.isSome = true ∧ rp.setsockopt = true ∧ rp.bind = true

instance (rp : AddrInfo) : Decidable rp.Binds := inferInstanceAs (Decidable (_ ∧ _))

/-- There is a socket, but it cannot be configured. -/
def Unset (rp : AddrInfo) : Prop := rp.socket.isSome = true ∧ rp.setsockopt = false

instance (rp : AddrInfo) : Decidable rp.Unset := inferInstanceAs (Decidable (_ ∧ _))

/-- No address can be bound, and the last one's socket not even configured. -/
def StaleLast (result : List AddrInfo) : Prop :=
  (∀ rp ∈ result, ¬rp.Binds) ∧ ∃ rp ∈ result.getLast?, rp.Unset

instance (result : List AddrInfo) : Decidable (StaleLast result) := inferInstanceAs (Decidable (_ ∧ _))

end AddrInfo

namespace ServerSocket

open AddrInfo

variable {h fds fds' : Fds} {fd fd' : Var Int}

/-- One round of the loop. -/
theorem bindLoop_cons (hw : h.WellFormed) (ha : h.Adds fds none) {rp : AddrInfo} {rest : List AddrInfo}
    {out : Var Int × Option AiFamily × Fds} (hrun : bindLoop fd fds (rp :: rest) = some out) :
    rp.Binds ∧ out.2.1 = some rp.aiFamily ∧ (∃ t, Got h out.2.2 out.1 t) ∨
      ¬rp.Binds ∧ ∃ fd₁ fds₁, h.Adds fds₁ none ∧ bindLoop fd₁ fds₁ rest = some out ∧
        (rp.Unset ∧ Dead fd₁ fds₁ ∨ ¬rp.Unset ∧ fd₁ = closed) := by
  obtain ⟨⟨fd₀, fds₀⟩, hsocket, hround⟩ := Option.bind_eq_some_iff.mp hrun
  clear hrun
  dsimp only at hround
  rcases socket_some hsocket with ⟨hnone, rfl, rfl⟩ | ⟨n, hsome, hn, hfree, rfl, rfl⟩
  · rw [if_pos (show closed.name = -1 from rfl)] at hround
    refine .inr ⟨?_, closed, fds₀, ha, hround, .inr ⟨?_, rfl⟩⟩
    · rintro ⟨hsocket, _⟩
      rw [hnone] at hsocket
      cases hsocket
    · rintro ⟨hsocket, _⟩
      rw [hnone] at hsocket
      cases hsocket
  · rw [if_neg (ne_minus_one hn)] at hround
    obtain ⟨⟨configured, fds₁⟩, hset, hconfigured⟩ := Option.bind_eq_some_iff.mp hround
    clear hround
    dsimp only at hconfigured
    obtain ⟨rfl, rfl, _⟩ := call_some hset
    have hgot := (got_acquire ha hn hfree).log .setsockopt
    split at hconfigured
    · next hunset =>
      obtain ⟨hadds, hdead⟩ := hgot.close hw
      refine .inr ⟨?_, _, _, hadds, hconfigured, .inl ⟨⟨by rw [hsome]; rfl, hunset⟩, hdead⟩⟩
      rintro ⟨_, hset, _⟩
      rw [hunset] at hset
      cases hset
    · next hset =>
      obtain ⟨⟨bound, fds₂⟩, hbind, hround⟩ := Option.bind_eq_some_iff.mp hconfigured
      clear hconfigured
      dsimp only at hround
      obtain ⟨rfl, rfl, _⟩ := call_some hbind
      have hgot' := hgot.log .bind
      split at hround
      · next hbound =>
        obtain rfl := Option.some.inj hround
        exact .inl ⟨⟨by rw [hsome]; rfl, by simpa using hset, hbound⟩, rfl, _, hgot'⟩
      · next hbound =>
        obtain ⟨hadds, _⟩ := hgot'.close hw
        refine .inr ⟨fun hbinds => hbound hbinds.2.2, _, _, hadds, hround, .inr ⟨?_, rfl⟩⟩
        rintro ⟨_, hunset⟩
        exact hset hunset

theorem bindLoop_spec (hw : h.WellFormed) (ha : h.Adds fds none) {result : List AddrInfo} {family : Option AiFamily}
    (hrun : bindLoop fd fds result = some (fd', family, fds')) :
    (∃ rp ∈ result, rp.Binds) ∧ (∃ t, Got h fds' fd' t) ∨
      (∀ rp ∈ result, ¬rp.Binds) ∧ h.Adds fds' none ∧
        (result = [] ∧ fd' = fd ∧ fds' = fds ∨
          ∃ rp ∈ result.getLast?, rp.Unset ∧ Dead fd' fds' ∨ ¬rp.Unset ∧ fd' = closed) := by
  induction result generalizing fd fds with
  | nil =>
      obtain ⟨rfl, _, rfl⟩ := by simpa [bindLoop] using hrun
      exact .inr ⟨by simp, ha, .inl ⟨rfl, rfl, rfl⟩⟩
  | cons rp rest ih =>
      rcases bindLoop_cons hw ha hrun with ⟨hbinds, _, hgot⟩ | ⟨hnot, fd₁, fds₁, hadds, hrest, hfd⟩
      · exact .inl ⟨⟨rp, List.mem_cons_self .., hbinds⟩, hgot⟩
      · rcases ih hadds hrest with ⟨⟨rp', hmem, hbinds⟩, hgot⟩ | ⟨hnone, hadds', hlast⟩
        · exact .inl ⟨⟨rp', List.mem_cons_of_mem rp hmem, hbinds⟩, hgot⟩
        · refine .inr ⟨List.forall_mem_cons.mpr ⟨hnot, hnone⟩, hadds', .inr ?_⟩
          rcases hlast with ⟨rfl, rfl, rfl⟩ | ⟨rp', hlast, hend⟩
          · exact ⟨rp, rfl, hfd⟩
          · refine ⟨rp', ?_, hend⟩
            have hne : rest ≠ [] := by
              rintro rfl
              cases hlast
            rwa [List.getLast?_cons_of_ne_nil hne]

namespace BindCalls

/-- The addresses that are tried. -/
def addresses (calls : BindCalls) (port : UInt16) (aiFamily : AiFamily) : Option (List AddrInfo) :=
  if reasonable aiFamily = true then calls.getaddrinfo aiFamily (service port) else none

def Stale (calls : BindCalls) (port : UInt16) (aiFamily : AiFamily) : Prop :=
  ∃ result ∈ calls.addresses port aiFamily, StaleLast result

instance (calls : BindCalls) (port : UInt16) (aiFamily : AiFamily) : Decidable (calls.Stale port aiFamily) :=
  inferInstanceAs (Decidable (∃ result ∈ calls.addresses port aiFamily, StaleLast result))

def Succeeds (calls : BindCalls) (port : UInt16) (aiFamily : AiFamily) : Prop :=
  (∃ result ∈ calls.addresses port aiFamily, ∃ rp ∈ result, rp.Binds) ∧ calls.listen = true

instance (calls : BindCalls) (port : UInt16) (aiFamily : AiFamily) : Decidable (calls.Succeeds port aiFamily) :=
  inferInstanceAs (Decidable (_ ∧ _))

end BindCalls

/-- What BindAndListen does to the descriptors: it gets one more and listens on
it, or has none more in the end, or uses one that it has closed. -/
theorem bindAndListen_spec {s s' : ServerSocket} {aiFamily : AiFamily} {calls : BindCalls} {b : Bool}
    (hw : fds.WellFormed) (hrun : s.bindAndListen aiFamily calls fds = some (b, s', fds')) :
    s'.port = s.port ∧
    (calls.Succeeds s.port aiFamily ∧ ¬calls.Stale s.port aiFamily ∧ b = true ∧
        (∃ t, Got fds fds' s'.listenSockFd t) ∨
      ¬calls.Succeeds s.port aiFamily ∧ ¬calls.Stale s.port aiFamily ∧ b = false ∧ fds.Adds fds' none ∧
        s'.listenSockFd = s.listenSockFd ∨
      calls.Stale s.port aiFamily ∧ b = false ∧ s'.listenSockFd = s.listenSockFd ∧ fds'.WellFormed ∧
        ∃ c ∈ fds'.calls, ¬c.Reaches) := by
  have hsuccess {result : List AddrInfo} (hresult : calls.addresses s.port aiFamily = some result) :
      calls.Succeeds s.port aiFamily ↔ (∃ rp ∈ result, rp.Binds) ∧ calls.listen = true := by
    rw [BindCalls.Succeeds, hresult]
    simp
  have hstale {result : List AddrInfo} (hresult : calls.addresses s.port aiFamily = some result) :
      calls.Stale s.port aiFamily ↔ StaleLast result := by
    rw [BindCalls.Stale, hresult]
    simp
  have hnothing (hnone : calls.addresses s.port aiFamily = none) :
      ¬calls.Succeeds s.port aiFamily ∧ ¬calls.Stale s.port aiFamily := by
    rw [BindCalls.Succeeds, BindCalls.Stale, hnone]
    simp
  rw [bindAndListen] at hrun
  split at hrun
  · next hfamily =>
    obtain ⟨rfl, rfl, rfl⟩ : false = b ∧ s = s' ∧ fds = fds' := by simpa using hrun
    have hnone : calls.addresses s.port aiFamily = none := if_neg (by rw [hfamily]; exact Bool.false_ne_true)
    obtain ⟨hfails, hfresh⟩ := hnothing hnone
    exact ⟨rfl, .inr (.inl ⟨hfails, hfresh, rfl, .refl hw, rfl⟩)⟩
  · next hfamily =>
    have haddresses : calls.addresses s.port aiFamily = calls.getaddrinfo aiFamily (service s.port) :=
      if_pos (by simpa using hfamily)
    cases hresult : calls.getaddrinfo aiFamily (service s.port) with
    | none =>
        rw [hresult] at hrun haddresses
        obtain ⟨rfl, rfl, rfl⟩ : false = b ∧ s = s' ∧ fds = fds' := by simpa using hrun
        obtain ⟨hfails, hfresh⟩ := hnothing haddresses
        exact ⟨rfl, .inr (.inl ⟨hfails, hfresh, rfl, .refl hw, rfl⟩)⟩
    | some result =>
        rw [hresult] at hrun haddresses
        rw [hsuccess haddresses, hstale haddresses]
        obtain ⟨⟨fd, family, fds₁⟩, hloop, hrest⟩ := Option.bind_eq_some_iff.mp hrun
        clear hrun
        dsimp only at hrest
        rcases bindLoop_spec hw (.refl hw) hloop with ⟨hbinds, t, hgot⟩ | ⟨hnone, hadds, hlast⟩
        · have hfresh : ¬StaleLast result := by
            rintro ⟨hnone, _⟩
            obtain ⟨rp, hmem, hrp⟩ := hbinds
            exact hnone rp hmem hrp
          rw [if_neg (ne_minus_one hgot.natural)] at hrest
          obtain ⟨⟨ok, fds₂⟩, hlisten, hend⟩ := Option.bind_eq_some_iff.mp hrest
          dsimp only at hend
          obtain ⟨rfl, rfl, _⟩ := call_some hlisten
          have hgot' := hgot.log .listen
          split at hend
          · next hfails =>
            obtain ⟨rfl, rfl, rfl⟩ := by simpa using hend
            refine ⟨rfl, .inr (.inl ⟨?_, hfresh, rfl, (hgot'.close hw).1, rfl⟩)⟩
            rintro ⟨_, hlistens⟩
            rw [hfails] at hlistens
            cases hlistens
          · next hlistens =>
            obtain ⟨rfl, rfl, rfl⟩ := by simpa using hend
            exact ⟨rfl, .inl ⟨⟨hbinds, by simpa using hlistens⟩, hfresh, rfl, t, hgot'⟩⟩
        · have hfails : ¬((∃ rp ∈ result, rp.Binds) ∧ calls.listen = true) := by
            rintro ⟨⟨rp, hmem, hrp⟩, _⟩
            exact hnone rp hmem hrp
          rcases hlast with ⟨rfl, rfl, rfl⟩ | ⟨rp, hlast, ⟨hunset, hdead⟩ | ⟨hset, rfl⟩⟩
          · rw [if_pos (show closed.name = -1 from rfl)] at hrest
            obtain ⟨rfl, rfl, rfl⟩ := by simpa using hrest
            refine ⟨rfl, .inr (.inl ⟨hfails, ?_, rfl, hadds, rfl⟩)⟩
            rintro ⟨_, rp, hlast, _⟩
            cases hlast
          · rw [if_neg (ne_minus_one hdead.1)] at hrest
            obtain ⟨⟨ok, fds₂⟩, hlisten, hend⟩ := Option.bind_eq_some_iff.mp hrest
            dsimp only at hend
            obtain ⟨rfl, rfl, hopen⟩ := call_some hlisten
            rw [if_pos (hopen hdead.2)] at hend
            obtain ⟨rfl, rfl, rfl⟩ := by simpa using hend
            refine ⟨rfl, .inr (.inr ⟨⟨hnone, rp, hlast, hunset⟩, rfl, rfl, hadds.wellFormed.log.release, ?_⟩)⟩
            refine ⟨⟨.close, fd.ticket, fds₁.table fd.name⟩,
              List.mem_append_right _ (List.mem_singleton_self _), ?_⟩
            rintro ⟨hsome, htarget⟩
            dsimp only at hsome htarget
            rw [hdead.2] at htarget
            rw [← htarget] at hsome
            cases hsome
          · rw [if_pos (show closed.name = -1 from rfl)] at hrest
            obtain ⟨rfl, rfl, rfl⟩ := by simpa using hrest
            refine ⟨rfl, .inr (.inl ⟨hfails, ?_, rfl, hadds, rfl⟩)⟩
            rintro ⟨_, rp', hlast', hunset⟩
            obtain rfl := Option.some.inj (hlast.symm.trans hlast')
            exact hset hunset

/-- The first error of accept that is no interruption. -/
def Fails : List AcceptResult → Prop
  | .interrupted :: rest => Fails rest
  | .failed :: _ => True
  | .connected _ _ :: _ => False
  | [] => False

instance : DecidablePred Fails := by
  intro results
  induction results with
  | nil => exact isFalse id
  | cons result rest ih =>
      cases result with
      | interrupted => exact ih
      | failed => exact isTrue trivial
      | connected client peer => exact isFalse id

section

variable {v : Var Int} {t : Ticket} {results : List AcceptResult} {r : Option (Var Int × Peer)}

theorem acceptLoop_keeps (hw : fds.WellFormed) (hrun : acceptLoop v fds results = some (r, fds')) :
    fds'.WellFormed ∧ ∀ c ∈ fds.calls, c ∈ fds'.calls := by
  induction results generalizing fds with
  | nil => cases hrun
  | cons result rest ih =>
      cases result with
      | interrupted =>
          simp only [acceptLoop, Option.ite_none_left_eq_some] at hrun
          obtain ⟨hwf, hcalls⟩ := ih hw.log hrun.2
          exact ⟨hwf, fun c hc => hcalls c (List.mem_append_left _ hc)⟩
      | failed =>
          obtain ⟨_, rfl⟩ := Prod.mk.inj (Option.some.inj hrun)
          exact ⟨hw.log.release, fun c hc => List.mem_append_left _ (List.mem_append_left _ hc)⟩
      | connected client peer =>
          simp only [acceptLoop, Option.ite_none_left_eq_some] at hrun
          obtain ⟨_, rfl⟩ := Prod.mk.inj (Option.some.inj hrun.2)
          exact ⟨hw.log.acquire, fun c hc => List.mem_append_left _ hc⟩

theorem acceptLoop_astray (hw : fds.WellFormed) (hmiss : v.ticket = none ∨ fds.table v.name ≠ v.ticket)
    (hrun : acceptLoop v fds results = some (r, fds')) : fds'.WellFormed ∧ ∃ c ∈ fds'.calls, ¬c.Reaches := by
  refine ⟨(acceptLoop_keeps hw hrun).1, ⟨.accept, v.ticket, fds.table v.name⟩, ?_, ?_⟩
  · have hlogged : (⟨.accept, v.ticket, fds.table v.name⟩ : Call Syscall) ∈ (fds.log .accept v).calls :=
      List.mem_append_right _ (List.mem_singleton_self _)
    cases results with
    | nil => cases hrun
    | cons result rest =>
        cases result with
        | interrupted =>
            simp only [acceptLoop, Option.ite_none_left_eq_some] at hrun
            exact (acceptLoop_keeps hw.log hrun.2).2 _ hlogged
        | failed =>
            obtain ⟨_, rfl⟩ := Prod.mk.inj (Option.some.inj hrun)
            exact List.mem_append_left _ hlogged
        | connected client peer =>
            simp only [acceptLoop, Option.ite_none_left_eq_some] at hrun
            obtain ⟨_, rfl⟩ := Prod.mk.inj (Option.some.inj hrun.2)
            exact hlogged
  · rintro ⟨hsome, htarget⟩
    rcases hmiss with hnone | hne
    · dsimp only at hsome
      rw [hnone] at hsome
      cases hsome
    · exact hne htarget

theorem acceptLoop_reached (ha : h.Adds fds none) (ht : v.ticket = some t) (hopen : fds.table v.name = some t)
    (hrun : acceptLoop v fds results = some (r, fds')) :
    Fails results ∧ r = none ∧
        (∃ fds₁, h.Adds fds₁ none ∧ fds₁.table v.name = some t ∧ fds' = fds₁.release .close v) ∨
      ¬Fails results ∧ ∃ client peer t', r = some (client, peer) ∧ Got h fds' client t' := by
  induction results generalizing fds with
  | nil => cases hrun
  | cons result rest ih =>
      cases result with
      | interrupted =>
          simp only [acceptLoop, Option.ite_none_left_eq_some] at hrun
          exact ih (ha.log .accept ht hopen) hopen hrun.2
      | failed =>
          obtain ⟨rfl, rfl⟩ := Prod.mk.inj (Option.some.inj hrun)
          exact .inl ⟨trivial, rfl, _, ha.log .accept ht hopen, hopen, rfl⟩
      | connected client peer =>
          simp only [acceptLoop, Option.ite_none_left_eq_some, not_or, Int.not_lt, ne_eq, not_not] at hrun
          obtain ⟨⟨_, hclient, hfree⟩, hrun⟩ := hrun
          obtain ⟨rfl, rfl⟩ := Prod.mk.inj (Option.some.inj hrun)
          exact .inr ⟨id, _, peer, _, rfl, got_acquire (ha.log .accept ht hopen) hclient hfree⟩

end

/-- What Accept does to the descriptors: the connection is returned or closed
again, or the listening descriptor is closed. -/
theorem accept_reached {s : ServerSocket} {results : List AcceptResult} {accepted : Option Accepted} {t : Ticket}
    (hw : fds.WellFormed) (ht : s.listenSockFd.ticket = some t) (hopen : fds.table s.listenSockFd.name = some t)
    (hrun : s.accept results fds = some (accepted, fds')) :
    Fails results ∧ accepted = none ∧
        (∃ fds₁, fds.Adds fds₁ none ∧ fds₁.table s.listenSockFd.name = some t ∧
          fds' = fds₁.release .close s.listenSockFd) ∨
      ¬Fails results ∧ fds.Adds fds' none := by
  obtain ⟨⟨r, fds₁⟩, hloop, hend⟩ := Option.bind_eq_some_iff.mp hrun
  rcases acceptLoop_reached (.refl hw) ht hopen hloop with ⟨hfails, rfl, hclosed⟩ | ⟨hnot, client, peer, t', rfl, hgot⟩
  · obtain ⟨rfl, rfl⟩ := Prod.mk.inj (Option.some.inj hend)
    exact .inl ⟨hfails, rfl, hclosed⟩
  · refine .inr ⟨hnot, ?_⟩
    dsimp only at hend
    split at hend
    · obtain ⟨_, rfl⟩ := Prod.mk.inj (Option.some.inj hend)
      exact (hgot.close hw).1
    · split at hend
      · obtain ⟨_, rfl⟩ := Prod.mk.inj (Option.some.inj hend)
        exact (hgot.close hw).1
      · obtain ⟨_, rfl⟩ := Prod.mk.inj (Option.some.inj hend)
        have hnamed := hgot.log .getsockname
        rw [hgot.ticket]
        exact hnamed.adds.handOver hnamed.new

theorem accept_astray {s : ServerSocket} {results : List AcceptResult} {accepted : Option Accepted}
    (hw : fds.WellFormed)
    (hmiss : s.listenSockFd.ticket = none ∨ fds.table s.listenSockFd.name ≠ s.listenSockFd.ticket)
    (hrun : s.accept results fds = some (accepted, fds')) : fds'.WellFormed ∧ ∃ c ∈ fds'.calls, ¬c.Reaches := by
  obtain ⟨⟨r, fds₁⟩, hloop, hend⟩ := Option.bind_eq_some_iff.mp hrun
  obtain ⟨hw₁, c, hc, hnot⟩ := acceptLoop_astray hw hmiss hloop
  cases r with
  | none =>
      obtain ⟨_, rfl⟩ := Prod.mk.inj (Option.some.inj hend)
      exact ⟨hw₁, c, hc, hnot⟩
  | some connection =>
      dsimp only at hend
      split at hend
      · obtain ⟨_, rfl⟩ := Prod.mk.inj (Option.some.inj hend)
        exact ⟨hw₁.release, c, List.mem_append_left _ hc, hnot⟩
      · split at hend
        · obtain ⟨_, rfl⟩ := Prod.mk.inj (Option.some.inj hend)
          exact ⟨hw₁.release, c, List.mem_append_left _ hc, hnot⟩
        · obtain ⟨_, rfl⟩ := Prod.mk.inj (Option.some.inj hend)
          exact ⟨hw₁.log.handOver _, c, List.mem_append_left _ hc, hnot⟩

end ServerSocket

end SearchEngine
