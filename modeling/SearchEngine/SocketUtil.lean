import SearchEngine.ServerSocket

/-! The other loops over the addresses of a lookup: the client's in HttpUtils
and those of the two exercises. -/

namespace SearchEngine.SocketUtil

open Handles ServerSocket

/-- An address of a server, and how the calls for it end. -/
structure ServerAddr where
  socket : Option Int
  connect : Bool
  deriving DecidableEq

namespace ServerAddr

def Connects (r : ServerAddr) : Prop := r.socket.isSome = true ∧ r.connect = true

instance (r : ServerAddr) : Decidable r.Connects := inferInstanceAs (Decidable (_ ∧ _))

end ServerAddr

/-- The loop of ConnectToServer. A socket that does not connect is left. -/
def connectLoop (fds : Fds) : List ServerAddr → Option (Option (Var Int) × Fds)
  | [] => some (none, fds)
  | r :: rest => do
      let (clientSock, fds) ← socket fds r.socket
      if clientSock.name = -1 then connectLoop fds rest
      else
        let (ok, fds) ← call fds .connect clientSock r.connect
        if ok = false then connectLoop fds rest else some (some clientSock, fds)

/-- The descriptor that is returned through client_fd. -/
def connectToServer (getaddrinfo : Bytes → Bytes → Option (List ServerAddr)) (hostName : Bytes) (portNum : UInt16)
    (fds : Fds) : Option (Option (Var Int) × Fds) :=
  match getaddrinfo hostName (service portNum) with
  | none => some (none, fds)
  | some results => connectLoop fds results

/-- Connect of the exercise tries one address, and closes a socket that does
not connect. -/
def connect (addr : ServerAddr) (fds : Fds) : Option (Option (Var Int) × Fds) := do
  let (socketFd, fds) ← socket fds addr.socket
  if socketFd.name = -1 then some (none, fds)
  else
    let (ok, fds) ← call fds .connect socketFd addr.connect
    if ok = false then some (none, fds.release .close socketFd) else some (some socketFd, fds)

def listenLoop (fds : Fds) : List AddrInfo → Option (Option (Var Int × AddrInfo) × Fds)
  | [] => some (none, fds)
  | p :: rest => do
      let (sockfd, fds) ← socket fds p.socket
      if sockfd.name = -1 then listenLoop fds rest
      else
        let (configured, fds) ← call fds .setsockopt sockfd p.setsockopt
        if configured = false then listenLoop (fds.release .close sockfd) rest
        else
          let (bound, fds) ← call fds .bind sockfd p.bind
          if bound = false then listenLoop (fds.release .close sockfd) rest
          else some (some (sockfd, p), fds)

/-- The records that getaddrinfo allocates, up to freeaddrinfo. -/
structure AddrInfoList where
  records : List AddrInfo
  freed : Bool

def freeaddrinfo (res : AddrInfoList) : AddrInfoList := { res with freed := true }

def AddrInfoList.aiFamily (res : AddrInfoList) (p : AddrInfo) : Run AiFamily :=
  if res.freed then .error .badAccess else .ok p.aiFamily

/-- Listen of the exercise returns -1 when it fails. -/
def listen (calls : BindCalls) (portnum : Bytes) (fds : Fds) : Option (Run (Var Int × Option AiFamily) × Fds) :=
  match calls.getaddrinfo .AF_UNSPEC portnum with
  | none => some (.ok (closed, none), fds)
  | some records => do
      let res := AddrInfoList.mk records false
      let (found, fds) ← listenLoop fds res.records
      let res := freeaddrinfo res
      match found with
      | none => some (.ok (closed, none), fds)
      | some (sockfd, p) =>
          let (ok, fds) ← call fds .listen sockfd calls.listen
          if ok = false then some (.ok (closed, none), fds.release .close sockfd)
          else
            -- the record is one of those that were freed
            some ((res.aiFamily p).map fun family => (sockfd, some family), fds)

section

variable {h fds fds' : Fds} {sockfd : Var Int}

/-- One round of the loop: the socket is kept and listens, or nothing is left
of it. -/
theorem listenLoop_cons (hw : h.WellFormed) (ha : h.Adds fds none) {p : AddrInfo} {rest : List AddrInfo}
    {out : Option (Var Int × AddrInfo) × Fds} (hrun : listenLoop fds (p :: rest) = some out) :
    p.Binds ∧ (∃ sockfd t, out.1 = some (sockfd, p) ∧ Got h out.2 sockfd t) ∨
      ¬p.Binds ∧ ∃ fds₁, h.Adds fds₁ none ∧ listenLoop fds₁ rest = some out := by
  obtain ⟨⟨fd, fds₀⟩, hsocket, hround⟩ := Option.bind_eq_some_iff.mp hrun
  clear hrun
  dsimp only at hround
  rcases socket_some hsocket with ⟨hnone, rfl, rfl⟩ | ⟨n, hsome, hn, hfree, rfl, rfl⟩
  · rw [if_pos (show closed.name = -1 from rfl)] at hround
    refine .inr ⟨?_, fds₀, ha, hround⟩
    rintro ⟨hsocket, _⟩
    rw [hnone] at hsocket
    cases hsocket
  · rw [if_neg (ne_minus_one hn)] at hround
    obtain ⟨⟨configured, fds₁⟩, hset, hconfigured⟩ := Option.bind_eq_some_iff.mp hround
    clear hround
    dsimp only at hconfigured
    obtain ⟨rfl, rfl, _⟩ := call_some hset
    have hgot := (got_acquire ha hn hfree).log .setsockopt
    split at hconfigured
    · next hunset =>
      refine .inr ⟨?_, _, (hgot.close hw).1, hconfigured⟩
      rintro ⟨_, hset, _⟩
      rw [hunset] at hset
      cases hset
    · next hset =>
      obtain ⟨⟨bound, fds₂⟩, hbind, hend⟩ := Option.bind_eq_some_iff.mp hconfigured
      clear hconfigured
      dsimp only at hend
      obtain ⟨rfl, rfl, _⟩ := call_some hbind
      have hgot' := hgot.log .bind
      split at hend
      · next hunbound =>
        refine .inr ⟨?_, _, (hgot'.close hw).1, hend⟩
        rintro ⟨_, _, hbound⟩
        rw [hunbound] at hbound
        cases hbound
      · next hbound =>
        obtain rfl := Option.some.inj hend
        exact .inl ⟨⟨by rw [hsome]; rfl, by simpa using hset, by simpa using hbound⟩, _, _, rfl, hgot'⟩

theorem listenLoop_spec (hw : h.WellFormed) (ha : h.Adds fds none) {res : List AddrInfo}
    {out : Option (Var Int × AddrInfo)} (hrun : listenLoop fds res = some (out, fds')) :
    (∃ p ∈ res, p.Binds) ∧ (∃ sockfd p t, out = some (sockfd, p) ∧ Got h fds' sockfd t) ∨
      (∀ p ∈ res, ¬p.Binds) ∧ out = none ∧ h.Adds fds' none := by
  induction res generalizing fds with
  | nil =>
      obtain ⟨rfl, rfl⟩ := Prod.mk.inj (Option.some.inj hrun)
      exact .inr ⟨by simp, rfl, ha⟩
  | cons p rest ih =>
      rcases listenLoop_cons hw ha hrun with ⟨hbinds, sockfd, t, hout, hgot⟩ | ⟨hnot, fds₁, hadds, hrest⟩
      · exact .inl ⟨⟨p, List.mem_cons_self .., hbinds⟩, sockfd, _, t, hout, hgot⟩
      · rcases ih hadds hrest with ⟨⟨p', hmem, hbinds⟩, hgot⟩ | ⟨hnone, hout, hadds'⟩
        · exact .inl ⟨⟨p', List.mem_cons_of_mem p hmem, hbinds⟩, hgot⟩
        · exact .inr ⟨List.forall_mem_cons.mpr ⟨hnot, hnone⟩, hout, hadds'⟩

/-- Where it could succeed, Listen reads a record that it has freed. It returns
when it fails, and leaves no descriptor open then. -/
theorem listen_returns_iff (hw : fds.WellFormed) (hs : fds.Sound none) (calls : BindCalls) (portnum : Bytes)
    {out : Run (Var Int × Option AiFamily)} (hrun : listen calls portnum fds = some (out, fds')) :
    ((∃ r, out = .ok r) ↔
      ¬((∃ res ∈ calls.getaddrinfo .AF_UNSPEC portnum, ∃ p ∈ res, p.Binds) ∧ calls.listen = true)) ∧
    ∀ sockfd family, out = .ok (sockfd, family) → sockfd.name = -1 ∧ fds'.Sound none := by
  have hreturns {P : Prop} {fds₁ : Fds} (hnot : ¬P) (hs₁ : fds₁.Sound none)
      (hend : some ((Except.ok (closed, none) : Run (Var Int × Option AiFamily)), fds₁) = some (out, fds')) :
      ((∃ r, out = .ok r) ↔ ¬P) ∧
        ∀ sockfd family, out = .ok (sockfd, family) → sockfd.name = -1 ∧ fds'.Sound none := by
    obtain ⟨rfl, rfl⟩ := Prod.mk.inj (Option.some.inj hend)
    refine ⟨iff_of_true ⟨_, rfl⟩ hnot, ?_⟩
    intro sockfd family hout
    obtain ⟨rfl, _⟩ := Prod.mk.inj (Except.ok.inj hout)
    exact ⟨rfl, hs₁⟩
  rw [listen] at hrun
  cases hres : calls.getaddrinfo .AF_UNSPEC portnum with
  | none =>
      rw [hres] at hrun
      exact hreturns (by simp) hs hrun
  | some records =>
      rw [hres] at hrun
      obtain ⟨⟨found, fds₁⟩, hloop, hend⟩ := Option.bind_eq_some_iff.mp hrun
      clear hrun
      rcases listenLoop_spec hw (.refl hw) hloop with ⟨hbinds, fd, p, t, rfl, hgot⟩ | ⟨hnone, rfl, hadds⟩
      · obtain ⟨⟨ok, fds₂⟩, hlisten, hlast⟩ := Option.bind_eq_some_iff.mp hend
        dsimp only at hlast
        obtain ⟨rfl, rfl, _⟩ := call_some hlisten
        have hgot' := hgot.log .listen
        split at hlast
        · next hfails => exact hreturns (by simp [hfails]) (hs.adds (hgot'.close hw).1) hlast
        · next hlistens =>
          obtain ⟨rfl, rfl⟩ := Prod.mk.inj (Option.some.inj hlast)
          refine ⟨iff_of_false ?_ ?_, ?_⟩
          · rintro ⟨_, hout⟩
            cases hout
          · exact not_not.mpr ⟨⟨records, rfl, hbinds⟩, by simpa using hlistens⟩
          · intro _ _ hout
            cases hout
      · refine hreturns ?_ (hs.adds hadds) hend
        rintro ⟨⟨res, hmem, p, hp, hbinds⟩, _⟩
        obtain rfl := Option.some.inj hmem
        exact hnone p hp hbinds

/-- One round of the loop. -/
theorem connectLoop_cons (ha : h.Adds fds none) {r : ServerAddr} {rest : List ServerAddr}
    {out : Option (Var Int) × Fds} (hrun : connectLoop fds (r :: rest) = some out) :
    r.Connects ∧ (∃ fd t, out.1 = some fd ∧ Got h out.2 fd t) ∨
      ¬r.Connects ∧ r.socket = none ∧ connectLoop fds rest = some out ∨
      ¬r.Connects ∧ r.socket ≠ none ∧ ∃ fd fds₁ t, Got h fds₁ fd t ∧ connectLoop fds₁ rest = some out := by
  obtain ⟨⟨fd, fds₀⟩, hsocket, hround⟩ := Option.bind_eq_some_iff.mp hrun
  clear hrun
  dsimp only at hround
  rcases socket_some hsocket with ⟨hnone, rfl, rfl⟩ | ⟨n, hsome, hn, hfree, rfl, rfl⟩
  · rw [if_pos (show closed.name = -1 from rfl)] at hround
    refine .inr (.inl ⟨?_, hnone, hround⟩)
    rintro ⟨hsocket, _⟩
    rw [hnone] at hsocket
    cases hsocket
  · rw [if_neg (ne_minus_one hn)] at hround
    obtain ⟨⟨ok, fds₁⟩, hconnect, hend⟩ := Option.bind_eq_some_iff.mp hround
    clear hround
    dsimp only at hend
    obtain ⟨rfl, rfl, _⟩ := call_some hconnect
    have hgot := (got_acquire ha hn hfree).log .connect
    split at hend
    · next hfails =>
      refine .inr (.inr ⟨?_, by rw [hsome]; simp, _, _, _, hgot, hend⟩)
      rintro ⟨_, hok⟩
      rw [hfails] at hok
      cases hok
    · next hok =>
      obtain rfl := Option.some.inj hend
      exact .inl ⟨⟨by rw [hsome]; rfl, by simpa using hok⟩, _, _, rfl, hgot⟩

/-- What the loop has left open stays open. -/
theorem connectLoop_lost (hw : fds.WellFormed) {n : Int} {t : Ticket} (ht : fds.table n = some t)
    (hown : t ∈ fds.own) {results : List ServerAddr} {out : Option (Var Int)}
    (hrun : connectLoop fds results = some (out, fds')) : ¬fds'.Sound (out.bind Var.ticket) := by
  induction results generalizing fds with
  | nil =>
      obtain ⟨rfl, rfl⟩ := Prod.mk.inj (Option.some.inj hrun)
      exact fun hs => nomatch hs.held n t ht hown
  | cons r rest ih =>
      rcases connectLoop_cons (.refl hw) hrun with ⟨_, fd, u, hout, hgot⟩ | ⟨_, _, hrest⟩ |
        ⟨_, _, fd, fds₁, u, hgot, hrest⟩
      · dsimp only at hout hgot
        intro hs
        have hheld := hs.held n t (hgot.adds.lasting n t hown ht) ((hgot.adds.own t (hw.own t hown)).mpr hown)
        rw [hout, Option.bind_some, hgot.ticket] at hheld
        obtain rfl := Option.some.inj hheld
        exact absurd (hw.own u hown) (Nat.not_lt_of_le hgot.new)
      · exact ih hw ht hown hrest
      · exact ih hgot.adds.wellFormed (hgot.adds.lasting n t hown ht) ((hgot.adds.own t (hw.own t hown)).mpr hown) hrest

theorem connectLoop_sound_iff (hs : h.Sound none) (ha : h.Adds fds none)
    {results : List ServerAddr} {out : Option (Var Int)} (hrun : connectLoop fds results = some (out, fds')) :
    fds'.Sound (out.bind Var.ticket) ↔
      ∀ r ∈ results.takeWhile fun r => !decide r.Connects, r.socket = none := by
  induction results generalizing fds with
  | nil =>
      obtain ⟨rfl, rfl⟩ := Prod.mk.inj (Option.some.inj hrun)
      exact iff_of_true (hs.adds ha) (by simp)
  | cons r rest ih =>
      rcases connectLoop_cons ha hrun with ⟨hconnects, fd, t, hout, hgot⟩ | ⟨hnot, hnone, hrest⟩ |
        ⟨hnot, hsome, fd, fds₁, t, hgot, hrest⟩
      · dsimp only at hout hgot
        rw [List.takeWhile_cons_of_neg (by simpa using hconnects), hout, Option.bind_some, hgot.ticket]
        exact iff_of_true (hs.keeps (fun n u hu hown => nomatch hs.held n u hu hown) hgot.adds) (by simp)
      · rw [List.takeWhile_cons_of_pos (by simpa using hnot), List.forall_mem_cons, and_iff_right hnone]
        exact ih ha hrest
      · rw [List.takeWhile_cons_of_pos (by simpa using hnot), List.forall_mem_cons]
        refine iff_of_false ?_ fun h => hsome h.1
        exact connectLoop_lost hgot.adds.wellFormed hgot.opened hgot.own hrest

/-- ConnectToServer leaves a descriptor open besides the one it returns as soon
as one of the addresses before has a socket. -/
theorem connectToServer_sound_iff (hw : fds.WellFormed) (hs : fds.Sound none)
    (getaddrinfo : Bytes → Bytes → Option (List ServerAddr)) (hostName : Bytes) (portNum : UInt16)
    {out : Option (Var Int)} (hrun : connectToServer getaddrinfo hostName portNum fds = some (out, fds')) :
    fds'.Sound (out.bind Var.ticket) ↔ ∀ results ∈ getaddrinfo hostName (service portNum),
      ∀ r ∈ results.takeWhile fun r => !decide r.Connects, r.socket = none := by
  rw [connectToServer] at hrun
  cases hresults : getaddrinfo hostName (service portNum) with
  | none =>
      rw [hresults] at hrun
      obtain ⟨rfl, rfl⟩ := Prod.mk.inj (Option.some.inj hrun)
      exact iff_of_true hs (by simp)
  | some results =>
      rw [hresults] at hrun
      have hloop := connectLoop_sound_iff hs (.refl hw) hrun
      simpa using hloop

/-- Connect of the exercise leaves none. -/
theorem connect_sound (hw : fds.WellFormed) (hs : fds.Sound none) {addr : ServerAddr} {out : Option (Var Int)}
    (hrun : connect addr fds = some (out, fds')) : fds'.Sound (out.bind Var.ticket) := by
  obtain ⟨⟨fd, fds₀⟩, hsocket, hround⟩ := Option.bind_eq_some_iff.mp hrun
  clear hrun
  dsimp only at hround
  rcases socket_some hsocket with ⟨hnone, rfl, rfl⟩ | ⟨n, hsome, hn, hfree, rfl, rfl⟩
  · rw [if_pos (show closed.name = -1 from rfl)] at hround
    obtain ⟨rfl, rfl⟩ := Prod.mk.inj (Option.some.inj hround)
    exact hs
  · rw [if_neg (ne_minus_one hn)] at hround
    obtain ⟨⟨ok, fds₁⟩, hconnect, hend⟩ := Option.bind_eq_some_iff.mp hround
    clear hround
    dsimp only at hend
    obtain ⟨rfl, rfl, _⟩ := call_some hconnect
    have hgot := (got_acquire (.refl hw) hn hfree).log .connect
    split at hend
    · obtain ⟨rfl, rfl⟩ := Prod.mk.inj (Option.some.inj hend)
      exact hs.adds (hgot.close hw).1
    · obtain ⟨rfl, rfl⟩ := Prod.mk.inj (Option.some.inj hend)
      exact hs.keeps (fun n u hu hown => nomatch hs.held n u hu hown) hgot.adds

end

/-- The first address has no socket, the second cannot be bound. -/
def twoAddresses : BindCalls :=
  ⟨fun _ _ => some [⟨.AF_INET6, none, true, true⟩, ⟨.AF_INET6, some 3, true, false⟩], true⟩

theorem listen_returns_two : ∃ (r : Var Int × Option AiFamily) (fds : Fds),
    listen twoAddresses (ascii "5000".toList) Ledger.init = some (.ok r, fds) ∧ r.1.name = -1 ∧ fds.Sound none := by
  have hruns : (listen twoAddresses (ascii "5000".toList) Ledger.init).isSome = true := by decide
  obtain ⟨⟨out, fds⟩, hrun⟩ := Option.isSome_iff_exists.mp hruns
  obtain ⟨hiff, hclosed⟩ := listen_returns_iff Ledger.wellFormed_init Ledger.sound_init twoAddresses
    (ascii "5000".toList) hrun
  obtain ⟨r, rfl⟩ := hiff.mpr (by simp [twoAddresses, AddrInfo.Binds])
  exact ⟨r, fds, hrun, hclosed r.1 r.2 rfl⟩

/-- There is no socket for the first address. -/
def twoServers : Bytes → Bytes → Option (List ServerAddr) := fun _ _ => some [⟨none, true⟩, ⟨some 3, true⟩]

theorem connectToServer_sound_two : ∃ (out : Option (Var Int)) (fds : Fds),
    connectToServer twoServers (ascii "localhost".toList) 80 Ledger.init = some (out, fds) ∧
      fds.Sound (out.bind Var.ticket) := by
  have hruns : (connectToServer twoServers (ascii "localhost".toList) 80 Ledger.init).isSome = true := by decide
  obtain ⟨⟨out, fds⟩, hrun⟩ := Option.isSome_iff_exists.mp hruns
  exact ⟨out, fds, hrun, (connectToServer_sound_iff Ledger.wellFormed_init Ledger.sound_init twoServers
    (ascii "localhost".toList) 80 hrun).mpr (by simp [twoServers, ServerAddr.Connects])⟩

end SearchEngine.SocketUtil
