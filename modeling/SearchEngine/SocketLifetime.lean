import SearchEngine.ServerSocket

/-! How a ServerSocket is to be used, and what happens otherwise. -/

namespace SearchEngine.ServerSocket

open Handles Transition

/-- What a user knows of a socket. It is lost when Accept has closed the
listening descriptor and the socket still has its number. -/
inductive Phase
  | unbound
  | listening
  | lost
  | gone
  deriving DecidableEq, Repr

/-- The calls that are in order. -/
def Phase.next (port : UInt16) : Phase → Action → Option Phase
  | p, .other _ => some p
  | .gone, .bindAndListen _ _ => none
  | .gone, .accept _ => none
  | .gone, .destroy => none
  | p, .bindAndListen aiFamily calls =>
      if calls.Stale port aiFamily then none
      else if calls.Succeeds port aiFamily then if p = .listening then none else some .listening
      else some p
  | .listening, .accept results => if Fails results then some .lost else some .listening
  | .unbound, .accept _ => none
  | .lost, .accept _ => none
  | .lost, .destroy => none
  | .unbound, .destroy => some .gone
  | .listening, .destroy => some .gone

namespace Process

/-- The socket is in this phase. -/
def Agrees (port : UInt16) (w : Process) : Phase → Prop
  | .unbound => ∃ s, w.socket = some s ∧ s.port = port ∧ s.listenSockFd = closed
  | .listening => ∃ s t, w.socket = some s ∧ s.port = port ∧ s.listenSockFd.ticket = some t ∧
      0 ≤ s.listenSockFd.name ∧ w.fds.table s.listenSockFd.name = some t ∧ t ∈ w.fds.own
  | .lost => ∃ s t, w.socket = some s ∧ s.port = port ∧ s.listenSockFd.ticket = some t ∧
      0 ≤ s.listenSockFd.name ∧ t < w.fds.issued ∧ ∀ n, w.fds.table n ≠ some t
  | .gone => w.socket = none

structure Good (port : UInt16) (p : Phase) (w : Process) : Prop where
  wellFormed : w.fds.WellFormed
  sound : w.Sound
  agrees : w.Agrees port p

structure Bad (w : Process) : Prop where
  wellFormed : w.fds.WellFormed
  broken : w.fds.Broken w.held

variable {port : UInt16} {p : Phase} {w w' : Process}

theorem init_good : Good port .unbound (init port) :=
  ⟨Ledger.wellFormed_init, Ledger.sound_init, _, rfl, rfl, rfl⟩

/-- Work that keeps nothing leaves the phase as it is. -/
theorem Good.adds (hg : Good port p w) {fds : Fds} (ha : w.fds.Adds fds none) {accepted : List Accepted}
    {socket : Option ServerSocket} (hsocket : socket.map listenSockFd = w.socket.map listenSockFd)
    (hport : socket.map ServerSocket.port = w.socket.map ServerSocket.port) :
    Good port p ⟨socket, fds, accepted⟩ := by
  have hheld : held ⟨socket, fds, accepted⟩ = w.held := by
    have hticket := congrArg (Option.bind · Var.ticket) hsocket
    simpa [held, Option.bind_map] using hticket
  have hsame {s : ServerSocket} (hs : w.socket = some s) : ∃ s', socket = some s' ∧ s'.port = s.port ∧
      s'.listenSockFd = s.listenSockFd := by
    rw [hs, Option.map_some, Option.map_eq_some_iff] at hsocket hport
    obtain ⟨s', hs', hfd⟩ := hsocket
    obtain ⟨s'', hs'', hp⟩ := hport
    obtain rfl := Option.some.inj (hs'.symm.trans hs'')
    exact ⟨s', hs', hp, hfd⟩
  refine ⟨ha.wellFormed, ?_, ?_⟩
  · rw [Sound, hheld]
    exact hg.sound.adds ha
  · have hagrees := hg.agrees
    cases p with
    | unbound =>
        obtain ⟨s, hs, hp, hfd⟩ := hagrees
        obtain ⟨s', hs', hp', hfd'⟩ := hsame hs
        exact ⟨s', hs', hp'.trans hp, hfd'.trans hfd⟩
    | listening =>
        obtain ⟨s, t, hs, hp, ht, hn, hopen, hown⟩ := hagrees
        obtain ⟨s', hs', hp', hfd'⟩ := hsame hs
        refine ⟨s', t, hs', hp'.trans hp, ?_⟩
        rw [hfd']
        exact ⟨ht, hn, ha.lasting _ t hown hopen, (ha.own t (hg.wellFormed.own t hown)).mpr hown⟩
    | lost =>
        obtain ⟨s, t, hs, hp, ht, hn, hissued, hdead⟩ := hagrees
        obtain ⟨s', hs', hp', hfd'⟩ := hsame hs
        refine ⟨s', t, hs', hp'.trans hp, ?_⟩
        rw [hfd']
        exact ⟨ht, hn, Nat.lt_of_lt_of_le hissued ha.issued, fun n hopen => hdead n (ha.before n t hissued hopen)⟩
    | gone =>
        have hnone : w.socket = none := hagrees
        rw [hnone, Option.map_none, Option.map_eq_none_iff] at hsocket
        exact hsocket

theorem Bad.adds (hb : Bad w) {fds : Fds} {kept : Option Ticket} (ha : w.fds.Adds fds kept)
    {accepted : List Accepted} {socket : Option ServerSocket}
    (hheld : held ⟨socket, fds, accepted⟩ = w.held ∨ ∀ t ∈ held ⟨socket, fds, accepted⟩, w.fds.issued ≤ t) :
    Bad ⟨socket, fds, accepted⟩ :=
  ⟨ha.wellFormed, hb.broken.adds hb.wellFormed ha hheld⟩

theorem other_adds {o : Other} (hw : w.fds.WellFormed) (h : w.step (.other o) = some w') :
    ∃ fds, w.fds.Adds fds none ∧ w' = { w with fds := fds } := by
  cases o with
  | opens fd =>
      simp only [step, Option.ite_none_right_eq_some, Option.some.injEq] at h
      obtain ⟨⟨_, hfree⟩, rfl⟩ := h
      exact ⟨_, .acquireOther hw hfree, rfl⟩
  | closes fd =>
      simp only [step, Option.ite_none_right_eq_some, Option.some.injEq] at h
      obtain ⟨⟨t, ht, hother⟩, rfl⟩ := h
      refine ⟨_, .releaseOther hw ?_, rfl⟩
      intro t' ht'
      obtain rfl := Option.some.inj (ht.symm.trans ht')
      exact hother

theorem step_bind {aiFamily : AiFamily} {calls : BindCalls} (h : w.step (.bindAndListen aiFamily calls) = some w') :
    ∃ s b s' fds, w.socket = some s ∧ s.bindAndListen aiFamily calls w.fds = some (b, s', fds) ∧
      w' = ⟨some s', fds, w.accepted⟩ := by
  obtain ⟨s, hs, h⟩ := Option.bind_eq_some_iff.mp h
  obtain ⟨⟨b, s', fds⟩, hrun, h⟩ := Option.bind_eq_some_iff.mp h
  exact ⟨s, b, s', fds, hs, hrun, (Option.some.inj h).symm⟩

theorem step_accept {results : List AcceptResult} (h : w.step (.accept results) = some w') :
    ∃ s accepted fds, w.socket = some s ∧ s.accept results w.fds = some (accepted, fds) ∧
      w' = ⟨w.socket, fds, w.accepted ++ accepted.toList⟩ := by
  obtain ⟨s, hs, h⟩ := Option.bind_eq_some_iff.mp h
  obtain ⟨⟨accepted, fds⟩, hrun, h⟩ := Option.bind_eq_some_iff.mp h
  exact ⟨s, accepted, fds, hs, hrun, (Option.some.inj h).symm⟩

theorem step_destroy (h : w.step .destroy = some w') :
    ∃ s, w.socket = some s ∧ w' = ⟨none, s.destroy w.fds, w.accepted⟩ := by
  obtain ⟨s, hs, h⟩ := Option.bind_eq_some_iff.mp h
  exact ⟨s, hs, (Option.some.inj h).symm⟩

theorem bad_of_call {fds : Fds} {socket : Option ServerSocket} {accepted : List Accepted} (hw : fds.WellFormed)
    (hmiss : ∃ c ∈ fds.calls, ¬c.Reaches) : Bad ⟨socket, fds, accepted⟩ := ⟨hw, .inl hmiss⟩

/-- What has gone wrong stays so. -/
theorem step_bad (w : Process) (a : Action) (w' : Process) (hb : Bad w) (h : w.step a = some w') : Bad w' := by
  have hw := hb.wellFormed
  cases a with
  | other o =>
      obtain ⟨fds, ha, rfl⟩ := other_adds hw h
      exact hb.adds ha (.inl rfl)
  | bindAndListen aiFamily calls =>
      obtain ⟨s, b, s', fds, hs, hrun, rfl⟩ := step_bind h
      rcases (bindAndListen_spec hw hrun).2 with ⟨_, _, _, t, hgot⟩ | ⟨_, _, _, ha, hfd⟩ | ⟨_, _, _, hwf, hmiss⟩
      · refine hb.adds hgot.adds (.inr ?_)
        intro u hu
        obtain rfl := Option.some.inj (hgot.ticket.symm.trans hu)
        exact hgot.new
      · refine hb.adds ha (.inl ?_)
        rw [held, held, hs, Option.bind_some, Option.bind_some, hfd]
      · exact bad_of_call hwf hmiss
  | accept results =>
      obtain ⟨s, accepted, fds, hs, hrun, rfl⟩ := step_accept h
      by_cases hreached : ∃ t, s.listenSockFd.ticket = some t ∧ w.fds.table s.listenSockFd.name = some t
      · obtain ⟨t, ht, hopen⟩ := hreached
        rcases accept_reached hw ht hopen hrun with ⟨_, rfl, fds₁, ha, hopen₁, rfl⟩ | ⟨_, ha⟩
        · have hheld : w.held = s.listenSockFd.ticket := by rw [held, hs, Option.bind_some]
          have hbroken : fds₁.Broken w.held := hb.broken.adds hw ha (.inl rfl)
          exact ⟨ha.wellFormed.release, hbroken.release hheld.symm (.inl rfl)⟩
        · exact hb.adds ha (.inl rfl)
      · have hmiss : s.listenSockFd.ticket = none ∨ w.fds.table s.listenSockFd.name ≠ s.listenSockFd.ticket := by
          cases ht : s.listenSockFd.ticket with
          | none => exact .inl rfl
          | some t => exact .inr fun hopen => hreached ⟨t, ht, hopen⟩
        obtain ⟨hwf, hcall⟩ := accept_astray hw hmiss hrun
        exact bad_of_call hwf hcall
  | destroy =>
      obtain ⟨s, hs, rfl⟩ := step_destroy h
      have hheld : w.held = s.listenSockFd.ticket := by rw [held, hs, Option.bind_some]
      rw [ServerSocket.destroy]
      split
      · exact ⟨hw.release, hb.broken.release hheld.symm (.inr rfl)⟩
      · refine ⟨hw, ?_⟩
        rcases hb.broken with hmiss | ⟨n, t, ht, hown, _⟩
        · exact .inl hmiss
        · exact .inr ⟨n, t, ht, hown, fun hnone => nomatch hnone⟩

theorem next_bind {aiFamily : AiFamily} {calls : BindCalls} (hp : p ≠ .gone) :
    p.next port (.bindAndListen aiFamily calls) =
      if calls.Stale port aiFamily then none
      else if calls.Succeeds port aiFamily then if p = .listening then none else some .listening
      else some p := by
  cases p with
  | gone => exact absurd rfl hp
  | unbound => rfl
  | listening => rfl
  | lost => rfl

theorem Agrees.socket {s : ServerSocket} (ha : w.Agrees port p) (hs : w.socket = some s) :
    p ≠ .gone ∧ s.port = port := by
  cases p with
  | unbound =>
      obtain ⟨s', hs', hp, _⟩ := ha
      obtain rfl := Option.some.inj (hs.symm.trans hs')
      exact ⟨by simp, hp⟩
  | listening =>
      obtain ⟨s', t, hs', hp, _⟩ := ha
      obtain rfl := Option.some.inj (hs.symm.trans hs')
      exact ⟨by simp, hp⟩
  | lost =>
      obtain ⟨s', t, hs', hp, _⟩ := ha
      obtain rfl := Option.some.inj (hs.symm.trans hs')
      exact ⟨by simp, hp⟩
  | gone => exact absurd (hs.symm.trans ha) fun h => nomatch h

/-- A new listening descriptor: in order, unless there is one already. -/
theorem Good.bind (hg : Good port p w) {s s' : ServerSocket} (hs : w.socket = some s) (hport : s'.port = s.port)
    {fds : Fds} {t : Ticket} (hgot : Got w.fds fds s'.listenSockFd t) {accepted : List Accepted} :
    p ≠ .listening ∧ Good port .listening ⟨some s', fds, accepted⟩ ∨
      p = .listening ∧ Bad ⟨some s', fds, accepted⟩ := by
  have hsocket := hg.agrees.socket hs
  have hwf := hgot.adds.wellFormed
  have hlistening : Agrees port ⟨some s', fds, accepted⟩ .listening :=
    ⟨s', t, rfl, hport.trans hsocket.2, hgot.ticket, hgot.natural, hgot.opened, hgot.own⟩
  have hagrees := hg.agrees
  have hheld (hnone : ∀ n t, w.fds.table n = some t → t ∉ w.fds.own) :
      Good port .listening ⟨some s', fds, accepted⟩ := by
    refine ⟨hwf, ?_, hlistening⟩
    have hsound := hg.sound.keeps hnone hgot.adds
    rw [← hgot.ticket] at hsound
    exact hsound
  cases p with
  | unbound =>
      obtain ⟨s₀, hs₀, _, hfd⟩ := hagrees
      refine .inl ⟨by simp, hheld ?_⟩
      intro n u hu hown
      have hholds := hg.sound.held n u hu hown
      rw [held, hs₀, Option.bind_some, hfd] at hholds
      cases hholds
  | lost =>
      obtain ⟨s₀, t₀, hs₀, _, ht₀, _, _, hdead⟩ := hagrees
      refine .inl ⟨by simp, hheld ?_⟩
      intro n u hu hown
      have hholds := hg.sound.held n u hu hown
      rw [held, hs₀, Option.bind_some, ht₀] at hholds
      obtain rfl := Option.some.inj hholds
      exact hdead n hu
  | listening =>
      obtain ⟨s₀, t₀, hs₀, _, ht₀, _, hopen, hown⟩ := hagrees
      refine .inr ⟨rfl, hwf, .inr ⟨_, t₀, hgot.adds.lasting _ t₀ hown hopen,
        (hgot.adds.own t₀ (hg.wellFormed.own t₀ hown)).mpr hown, ?_⟩⟩
      rw [held, Option.bind_some, hgot.ticket]
      intro heq
      obtain rfl := Option.some.inj heq
      exact absurd (hg.wellFormed.own t hown) (Nat.not_lt_of_le hgot.new)
  | gone => exact absurd rfl hsocket.1

/-- One action, in each phase. -/
theorem step_good (p : Phase) (w : Process) (a : Action) (w' : Process) (hg : Good port p w)
    (h : w.step a = some w') :
    (∃ p', p.next port a = some p' ∧ Good port p' w') ∨ p.next port a = none ∧ Bad w' := by
  have hw := hg.wellFormed
  have hagrees := hg.agrees
  cases a with
  | other o =>
      obtain ⟨fds, ha, rfl⟩ := other_adds hw h
      exact .inl ⟨p, by cases p <;> rfl, hg.adds ha rfl rfl⟩
  | bindAndListen aiFamily calls =>
      obtain ⟨s, b, s', fds, hs, hrun, rfl⟩ := step_bind h
      obtain ⟨hgone, hport⟩ := hagrees.socket hs
      obtain ⟨hport', hspec⟩ := bindAndListen_spec hw hrun
      rw [hport] at hspec
      rw [next_bind hgone]
      rcases hspec with ⟨hok, hfresh, _, t, hgot⟩ | ⟨hfails, hfresh, _, ha, hfd⟩ | ⟨hstale, _, _, hwf, hmiss⟩
      · rw [if_neg hfresh, if_pos hok]
        rcases hg.bind hs hport' hgot with ⟨hp, hlistening⟩ | ⟨hp, hbad⟩
        · exact .inl ⟨.listening, if_neg hp, hlistening⟩
        · exact .inr ⟨if_pos hp, hbad⟩
      · rw [if_neg hfresh, if_neg hfails]
        refine .inl ⟨p, rfl, hg.adds ha ?_ ?_⟩
        · rw [hs, Option.map_some, Option.map_some, hfd]
        · rw [hs, Option.map_some, Option.map_some, hport']
      · rw [if_pos hstale]
        exact .inr ⟨rfl, bad_of_call hwf hmiss⟩
  | accept results =>
      obtain ⟨s, accepted, fds, hs, hrun, rfl⟩ := step_accept h
      cases p with
      | unbound =>
          obtain ⟨s₀, hs₀, _, hfd⟩ := hagrees
          obtain rfl := Option.some.inj (hs.symm.trans hs₀)
          obtain ⟨hwf, hmiss⟩ := accept_astray hw (.inl (by rw [hfd]; rfl)) hrun
          exact .inr ⟨rfl, bad_of_call hwf hmiss⟩
      | lost =>
          obtain ⟨s₀, t, hs₀, _, ht, _, _, hdead⟩ := hagrees
          obtain rfl := Option.some.inj (hs.symm.trans hs₀)
          obtain ⟨hwf, hmiss⟩ := accept_astray hw (.inr (by rw [ht]; exact hdead _)) hrun
          exact .inr ⟨rfl, bad_of_call hwf hmiss⟩
      | listening =>
          obtain ⟨s₀, t, hs₀, hp, ht, hn, hopen, hown⟩ := hagrees
          obtain rfl := Option.some.inj (hs.symm.trans hs₀)
          rw [Phase.next]
          rcases accept_reached hw ht hopen hrun with ⟨hfails, _, fds₁, ha, hopen₁, rfl⟩ | ⟨hnot, ha⟩
          · rw [if_pos hfails]
            have hheld : w.held = some t := by rw [held, hs, Option.bind_some, ht]
            have hsound : fds₁.Sound (some t) := by
              rw [← hheld]
              exact hg.sound.adds ha
            refine .inl ⟨.lost, rfl, ha.wellFormed.release, hsound.release ha.wellFormed ht hopen₁ _, s, t, hs, hp, ht,
              hn, Nat.lt_of_lt_of_le (hw.issued _ t hopen) ha.issued, ?_⟩
            intro n hu
            obtain ⟨hne, hu⟩ := Ledger.table_releaseOther hu
            exact hne (ha.wellFormed.unique n _ t hu hopen₁)
          · rw [if_neg hnot]
            exact .inl ⟨.listening, rfl, hg.adds ha rfl rfl⟩
      | gone => exact absurd (hs.symm.trans hagrees) fun h => nomatch h
  | destroy =>
      obtain ⟨s, hs, rfl⟩ := step_destroy h
      cases p with
      | unbound =>
          obtain ⟨s₀, hs₀, _, hfd⟩ := hagrees
          obtain rfl := Option.some.inj (hs.symm.trans hs₀)
          have hheld : w.held = none := by rw [held, hs, Option.bind_some, hfd]; rfl
          have hsound := hg.sound
          rw [Sound, hheld] at hsound
          rw [ServerSocket.destroy, hfd, if_neg (by simp [closed])]
          exact .inl ⟨.gone, rfl, hw, hsound, rfl⟩
      | listening =>
          obtain ⟨s₀, t, hs₀, _, ht, hn, hopen, _⟩ := hagrees
          obtain rfl := Option.some.inj (hs.symm.trans hs₀)
          have hheld : w.held = some t := by rw [held, hs, Option.bind_some, ht]
          have hsound := hg.sound
          rw [Sound, hheld] at hsound
          rw [ServerSocket.destroy, if_pos (ne_minus_one hn)]
          exact .inl ⟨.gone, rfl, hw.release, hsound.release hw ht hopen _, rfl⟩
      | lost =>
          obtain ⟨s₀, t, hs₀, _, ht, hn, _, hdead⟩ := hagrees
          obtain rfl := Option.some.inj (hs.symm.trans hs₀)
          rw [ServerSocket.destroy, if_pos (ne_minus_one hn)]
          refine .inr ⟨rfl, hw.release, .inl ⟨⟨.close, s.listenSockFd.ticket, w.fds.table s.listenSockFd.name⟩,
            List.mem_append_right _ (List.mem_singleton_self _), ?_⟩⟩
          rintro ⟨_, htarget⟩
          rw [ht] at htarget
          exact hdead _ htarget
      | gone => exact absurd (hs.symm.trans hagrees) fun h => nomatch h

theorem exec_phases {acts : List Action} (h : exec step (init port) acts = some w) :
    (∃ p, exec (Phase.next port) .unbound acts = some p ∧ Good port p w) ∨
      exec (Phase.next port) .unbound acts = none ∧ Bad w :=
  exec_protocol step_good step_bad acts init_good h

theorem Bad.not_sound (hb : Bad w) : ¬w.Sound := Ledger.not_sound.mpr hb.broken

/-- Whatever others do with their descriptors in between: the calls of a
socket reach its own descriptors and it leaves none open, exactly if it is used
in this order. -/
theorem lifetime_sound_iff (port : UInt16) {acts : List Action} (h : exec step (init port) acts = some w) :
    w.Sound ↔ (exec (Phase.next port) .unbound acts).isSome = true := by
  rcases exec_phases h with ⟨p, hexec, hgood⟩ | ⟨hexec, hbad⟩
  · rw [hexec]
    exact iff_of_true hgood.sound rfl
  · rw [hexec]
    exact iff_of_false hbad.not_sound Bool.false_ne_true

def oneAddress : BindCalls := ⟨fun _ _ => some [⟨.AF_INET6, some 3, true, true⟩], true⟩

def localPeer : Peer := ⟨ascii "::1".toList, 5000, some (ascii "localhost".toList), ascii "::1".toList, none⟩

theorem lifetime_sound_one : ∃ w, exec step (init 8080) [.bindAndListen .AF_INET6 oneAddress,
    .accept [.interrupted, .connected 4 localPeer], .other (.closes 4), .destroy] = some w ∧ w.Sound := by
  have hruns : (exec step (init 8080) [.bindAndListen .AF_INET6 oneAddress,
      .accept [.interrupted, .connected 4 localPeer], .other (.closes 4), .destroy]).isSome = true := by decide
  obtain ⟨w, hw⟩ := Option.isSome_iff_exists.mp hruns
  exact ⟨w, hw, (lifetime_sound_iff 8080 hw).mpr (by decide)⟩

end Process

end SearchEngine.ServerSocket

namespace SearchEngine.HttpServer

open Handles ServerSocket ServerSocket.Process Transition

/-- What happens until a call of Accept returns. -/
structure Round where
  others : List Other
  results : List AcceptResult

/-- The loop of Run, round by round. It ends with the call of Accept that
fails; the other connections are dispatched. -/
def acceptLoop (w : Process) : List Round → Option Process
  | [] => none
  | r :: rest => do
      let w ← exec step w (r.others.map Action.other)
      let s ← w.socket
      let (hst, fds) ← s.accept r.results w.fds
      let w := { w with fds := fds, accepted := w.accepted ++ hst.toList }
      match hst with
      | none => if rest.isEmpty then some w else none
      | some _ => acceptLoop w rest

/-- What the main thread calls. The workers of the pool are among the others,
and open and close no descriptor of the socket's. -/
def run (w : Process) (calls : BindCalls) (rounds : List Round) : Option (Bool × Process) := do
  let s ← w.socket
  let (ok, s, fds) ← s.bindAndListen .AF_INET6 calls w.fds
  let w := { w with socket := some s, fds := fds }
  if ok = false then some (false, w)
  else
    let w ← acceptLoop w rounds
    some (true, w)

/-- The server from its construction to its destruction. Others are still at
work after Run, such as the destructor of the pool. -/
def serve (port : UInt16) (calls : BindCalls) (rounds : List Round) (later : List Other) :
    Option (Bool × Process) := do
  let (ran, w) ← run (init port) calls rounds
  let w ← exec step w (later.map Action.other)
  let w ← step w .destroy
  some (ran, w)

def actions (rounds : List Round) : List Action :=
  rounds.flatMap fun r => r.others.map Action.other ++ [.accept r.results]

section

variable {port : UInt16} {calls : BindCalls} {rounds : List Round} {later : List Other} {w w' : Process}

theorem exec_round (w : Process) (r : Round) (rest : List Round) : exec step w (actions (r :: rest)) =
    (exec step w (r.others.map Action.other)).bind fun w =>
      (step w (.accept r.results)).bind fun w => exec step w (actions rest) := by
  rw [actions, List.flatMap_cons, List.append_assoc, exec_append]
  rfl

theorem acceptLoop_exec (h : acceptLoop w rounds = some w') : exec step w (actions rounds) = some w' := by
  induction rounds generalizing w with
  | nil => cases h
  | cons r rest ih =>
      obtain ⟨w₁, hothers, h⟩ := Option.bind_eq_some_iff.mp h
      obtain ⟨s, hs, h⟩ := Option.bind_eq_some_iff.mp h
      obtain ⟨⟨hst, fds⟩, haccept, h⟩ := Option.bind_eq_some_iff.mp h
      have hstep : step w₁ (.accept r.results) =
          some { w₁ with fds := fds, accepted := w₁.accepted ++ hst.toList } := by
        rw [step, hs, Option.bind_eq_bind, Option.bind_some, haccept]
        rfl
      rw [exec_round, hothers, Option.bind_some, hstep, Option.bind_some]
      cases hst with
      | none =>
          cases rest with
          | nil => exact h
          | cons next rest => cases h
      | some accepted => exact ih h

/-- Run is a bind, and after it the rounds. -/
theorem run_exec {s : ServerSocket} {ran : Bool} (hw : w.fds.WellFormed) (hs : w.socket = some s)
    (h : run w calls rounds = some (ran, w')) :
    (ran = true ↔ calls.Succeeds s.port .AF_INET6 ∧ ¬calls.Stale s.port .AF_INET6) ∧
      exec step w (.bindAndListen .AF_INET6 calls :: if ran = true then actions rounds else []) = some w' := by
  rw [run, hs, Option.bind_eq_bind, Option.bind_some] at h
  obtain ⟨⟨ok, s', fds⟩, hbind, hrest⟩ := Option.bind_eq_some_iff.mp h
  have hstep : step w (.bindAndListen .AF_INET6 calls) = some ⟨some s', fds, w.accepted⟩ := by
    rw [step, hs, Option.bind_eq_bind, Option.bind_some, hbind]
    rfl
  have hspec : ok = true ↔ calls.Succeeds s.port .AF_INET6 ∧ ¬calls.Stale s.port .AF_INET6 := by
    rcases (bindAndListen_spec hw hbind).2 with ⟨hok, hfresh, rfl, _⟩ | ⟨hfails, _, rfl, _⟩ | ⟨hstale, rfl, _⟩
    · exact iff_of_true rfl ⟨hok, hfresh⟩
    · exact iff_of_false Bool.false_ne_true fun hok => hfails hok.1
    · exact iff_of_false Bool.false_ne_true fun hok => hok.2 hstale
  dsimp only at hrest
  rw [exec, hstep, Option.bind_some]
  cases ok with
  | false =>
      rw [if_pos rfl] at hrest
      obtain ⟨rfl, rfl⟩ := Prod.mk.inj (Option.some.inj hrest)
      exact ⟨hspec, rfl⟩
  | true =>
      rw [if_neg (by simp)] at hrest
      obtain ⟨w₂, hloop, hrest⟩ := Option.bind_eq_some_iff.mp hrest
      obtain ⟨rfl, rfl⟩ := Prod.mk.inj (Option.some.inj hrest)
      exact ⟨hspec, acceptLoop_exec hloop⟩

theorem exec_others (p : Phase) (others : List Other) :
    exec (Phase.next port) p (others.map Action.other) = some p := by
  induction others with
  | nil => rfl
  | cons o others ih =>
      have hnext : p.next port (.other o) = some p := by cases p <;> rfl
      rw [List.map_cons, exec, hnext, Option.bind_some, ih]

theorem phases_round (p : Phase) (r : Round) (rest : List Round) (more : List Action) :
    exec (Phase.next port) p (actions (r :: rest) ++ more) =
      (p.next port (.accept r.results)).bind fun p => exec (Phase.next port) p (actions rest ++ more) := by
  rw [actions, List.flatMap_cons, List.append_assoc, List.append_assoc, exec_append, exec_others, Option.bind_some]
  rfl

/-- The phases of the rounds and of what comes later. -/
theorem phases_isSome : (exec (Phase.next port) .listening
    (actions rounds ++ (later.map Action.other ++ [.destroy]))).isSome = true ↔ ∀ r ∈ rounds, ¬Fails r.results := by
  have hdestroy (p : Phase) : exec (Phase.next port) p (later.map Action.other ++ [.destroy]) =
      p.next port .destroy := by
    rw [exec_append, exec_others, Option.bind_some, exec]
    cases p.next port .destroy <;> rfl
  have hlost (rounds : List Round) :
      exec (Phase.next port) .lost (actions rounds ++ (later.map Action.other ++ [.destroy])) = none := by
    cases rounds with
    | nil => exact hdestroy .lost
    | cons r rest =>
        rw [phases_round]
        rfl
  induction rounds with
  | nil =>
      have hgone : exec (Phase.next port) .listening (actions [] ++ (later.map Action.other ++ [.destroy])) =
          some .gone := hdestroy .listening
      rw [hgone]
      exact iff_of_true rfl (by simp)
  | cons r rest ih =>
      rw [phases_round, Phase.next, List.forall_mem_cons]
      by_cases hfails : Fails r.results
      · rw [if_pos hfails, Option.bind_some, hlost]
        exact iff_of_false Bool.false_ne_true fun h => h.1 hfails
      · rw [if_neg hfails, Option.bind_some, and_iff_right hfails]
        exact ih

/-- When the main thread has come to its end, it has closed its listening socket
once and no descriptor of others: exactly if its last address was not left half
configured and if it was not a failure of accept that ended its loop. -/
theorem serve_sound_iff {ran : Bool} (h : serve port calls rounds later = some (ran, w)) :
    w.Sound ↔ ¬calls.Stale port .AF_INET6 ∧ (calls.Succeeds port .AF_INET6 → ∀ r ∈ rounds, ¬Fails r.results) := by
  obtain ⟨⟨ran', w₁⟩, hrun, h⟩ := Option.bind_eq_some_iff.mp h
  obtain ⟨w₂, hlater, h⟩ := Option.bind_eq_some_iff.mp h
  obtain ⟨w₃, hdestroy, h⟩ := Option.bind_eq_some_iff.mp h
  obtain ⟨rfl, rfl⟩ := Prod.mk.inj (Option.some.inj h)
  obtain ⟨hran, hexec⟩ := run_exec (Ledger.wellFormed_init) (rfl : (init port).socket = some (new port)) hrun
  have hlast : exec step w₂ [.destroy] = some w₃ := by
    rw [exec, hdestroy]
    rfl
  have hall : exec step (init port) ((.bindAndListen .AF_INET6 calls :: if ran' = true then actions rounds else []) ++
      (later.map Action.other ++ [.destroy])) = some w₃ := by
    rw [exec_append, hexec, Option.bind_some, exec_append, hlater, Option.bind_some, hlast]
  have hphases : (exec (Phase.next port) .unbound ((.bindAndListen .AF_INET6 calls ::
      if ran' = true then actions rounds else []) ++ (later.map Action.other ++ [.destroy]))).isSome = true ↔
        ¬calls.Stale port .AF_INET6 ∧ (calls.Succeeds port .AF_INET6 → ∀ r ∈ rounds, ¬Fails r.results) := by
    rw [List.cons_append, exec, next_bind (by simp)]
    by_cases hstale : calls.Stale port .AF_INET6
    · rw [if_pos hstale]
      exact iff_of_false Bool.false_ne_true fun h => h.1 hstale
    · rw [if_neg hstale, and_iff_right hstale]
      by_cases hok : calls.Succeeds port .AF_INET6
      · rw [if_pos hok, if_neg (by simp), Option.bind_some, if_pos (hran.mpr ⟨hok, hstale⟩), phases_isSome]
        exact (imp_iff_right hok).symm
      · rw [if_neg hok, Option.bind_some, if_neg fun hr => hok (hran.mp hr).1, List.nil_append, exec_append,
          exec_others, Option.bind_some]
        exact iff_of_true rfl fun h => absurd h hok
  rw [← hphases]
  rcases exec_phases hall with ⟨p, hnext, hgood⟩ | ⟨hnext, hbad⟩
  · rw [hnext]
    exact iff_of_true hgood.sound rfl
  · rw [hnext]
    exact iff_of_false hbad.not_sound Bool.false_ne_true

end

/-- The loop ends with a peer whose name cannot be looked up. -/
theorem serve_sound_nameless : ∃ w, serve 8080 oneAddress [⟨[], [.connected 4 localPeer]⟩,
    ⟨[.closes 4], [.connected 4 { localPeer with host := none }]⟩] [.opens 4, .closes 4] = some (true, w) ∧
      w.Sound := by
  have hruns : (serve 8080 oneAddress [⟨[], [.connected 4 localPeer]⟩,
      ⟨[.closes 4], [.connected 4 { localPeer with host := none }]⟩] [.opens 4, .closes 4]).map Prod.fst =
        some true := by decide
  obtain ⟨⟨ran, w⟩, hw, hran⟩ := Option.map_eq_some_iff.mp hruns
  obtain rfl : ran = true := hran
  exact ⟨w, hw, (serve_sound_iff hw).mpr (by decide)⟩

end SearchEngine.HttpServer
