import SearchEngine.Library.Transition
import SearchEngine.HttpRequest

/-! The client that sends a file over a connection, and the server that writes
what comes to its standard output. -/

namespace SearchEngine.FileTransfer

open Transition

/-- BUFSIZE of the client. -/
def BUFSIZE : Nat := 256

/-- sizeof buf in the server. -/
def bufSize : Nat := 1024

/-- How a call of read or write ends: EAGAIN or EINTR, another error, or with a
number of bytes. -/
inductive Result
  | interrupted
  | failed
  | bytes (n : Nat)
  deriving DecidableEq

/-- Where the client is: in WrappedRead, in WrappedWrite with the bytes that it
has read, or at its end. -/
inductive Client
  | reading
  | writing (readbuf : Bytes) (writtenSoFar : Nat)
  | exited (success : Bool)
  deriving DecidableEq

inductive Server
  | reading
  | writing (buf : Bytes)
  | exited (success : Bool)
  deriving DecidableEq

/-- The bytes of the file that have not been read, those on their way to the
server, and those that its loop has put on standard output. The last field only
counts the bytes that a write to the output has left. -/
structure Transfer where
  rest : Bytes
  client : Client
  sent : Bytes
  server : Server
  output : Bytes
  left : Nat
  deriving DecidableEq

inductive Action
  | clientRead (result : Result)
  | clientWrite (result : Result)
  | serverRead (result : Result)
  | serverWrite (result : Result)
  deriving DecidableEq

namespace Transfer

/-- When both loops begin. The line with its port, which the server has printed
before, is not counted with the output. -/
def init (file : Bytes) : Transfer := ⟨file, .reading, [], .reading, [], 0⟩

/-- A read returns no bytes only at the end of the file. -/
def clientRead (w : Transfer) (result : Result) : Option Transfer :=
  match w.client, result with
  | .reading, .interrupted => some w
  | .reading, .failed => some { w with client := .exited false }
  | .reading, .bytes n =>
      if n ≤ min BUFSIZE w.rest.length ∧ (n = 0 → w.rest = []) then
        if n = 0 then some { w with client := .exited true }
        else some { w with rest := w.rest.drop n, client := .writing (w.rest.take n) 0 }
      else none
  | _, _ => none

def clientWrite (w : Transfer) (result : Result) : Option Transfer :=
  match w.client, result with
  | .writing _ _, .interrupted => some w
  | .writing _ _, .failed => some { w with client := .exited false }
  | .writing buf written, .bytes n =>
      if n ≤ buf.length - written then
        if n = 0 then some { w with client := .exited false }
        else
          let sent := w.sent ++ (buf.drop written).take n
          if written + n < buf.length then some { w with sent := sent, client := .writing buf (written + n) }
          else some { w with sent := sent, client := .reading }
      else none
  | _, _ => none

/-- A read returns no bytes only once the client has closed the connection and
everything sent is read. -/
def serverRead (w : Transfer) (result : Result) : Option Transfer :=
  match w.server, result with
  | .reading, .bytes n =>
      if n = 0 then
        match w.sent, w.client with
        | [], .exited _ => some { w with server := .exited true }
        | _, _ => none
      else if n ≤ min bufSize w.sent.length then
        some { w with sent := w.sent.drop n, server := .writing (w.sent.take n) }
      else none
  | .reading, _ => some { w with server := .exited false }
  | _, _ => none

def serverWrite (w : Transfer) (result : Result) : Option Transfer :=
  match w.server, result with
  | .writing buf, .bytes n =>
      if n ≤ buf.length then
        some { w with output := w.output ++ buf.take n, left := w.left + (buf.length - n), server := .reading }
      else none
  | .writing buf, _ => some { w with left := w.left + buf.length, server := .reading }
  | _, _ => none

/-- One system call of one of the two. -/
def step (w : Transfer) : Action → Option Transfer
  | .clientRead result => w.clientRead result
  | .clientWrite result => w.clientWrite result
  | .serverRead result => w.serverRead result
  | .serverWrite result => w.serverWrite result

end Transfer

/-- What the client has read and not yet written. -/
def Client.held : Client → Bytes
  | .reading => []
  | .writing readbuf writtenSoFar => readbuf.drop writtenSoFar
  | .exited _ => []

def Server.held : Server → Bytes
  | .reading => []
  | .writing buf => buf
  | .exited _ => []

namespace Transfer

/-- What has come to the server's output or been left by it, and everything
before that on its way, is the file. Of a client that has failed the rest is
missing. -/
structure Conserves (file : Bytes) (w : Transfer) (consumed : Bytes) : Prop where
  sublist : w.output.Sublist consumed
  length : w.output.length + w.left = consumed.length
  whole : w.client ≠ .exited false → consumed ++ w.server.held ++ w.sent ++ w.client.held ++ w.rest = file
  start : consumed ++ w.server.held ++ w.sent <+: file
  ended : w.client = .exited true → w.rest = []
  drained : w.server = .exited true → w.sent = [] ∧ ∃ success, w.client = .exited success
  holds : ∀ buf written, w.client = .writing buf written → written < buf.length
  serves : ∀ buf, w.server = .writing buf → buf ≠ []

variable {file consumed : Bytes} {w w' : Transfer}

theorem conserves_init (file : Bytes) : Conserves file (init file) [] where
  sublist := .refl _
  length := rfl
  whole _ := rfl
  start := List.nil_prefix
  ended h := nomatch h
  drained h := nomatch h
  holds _ _ h := nomatch h
  serves _ h := nomatch h

theorem clientRead_conserves {result : Result} (hc : Conserves file w consumed)
    (h : w.clientRead result = some w') : Conserves file w' consumed := by
  cases hclient : w.client with
  | writing buf written => simp [clientRead, hclient] at h
  | exited success => simp [clientRead, hclient] at h
  | reading =>
      have hwhole := hc.whole (by simp [hclient])
      have hopen : w.server ≠ .exited true := by
        intro hs
        obtain ⟨_, success, hexited⟩ := hc.drained hs
        rw [hclient] at hexited
        cases hexited
      cases result with
      | interrupted =>
          obtain rfl : w = w' := by simpa [clientRead, hclient] using h
          exact hc
      | failed =>
          obtain rfl : { w with client := .exited false } = w' := by simpa [clientRead, hclient] using h
          exact ⟨hc.sublist, hc.length, fun hne => absurd rfl hne, hc.start, (by simp),
            fun hs => absurd hs hopen, (by simp), hc.serves⟩
      | bytes n =>
          simp only [clientRead, hclient, Option.ite_none_right_eq_some] at h
          obtain ⟨⟨hn, hempty⟩, h⟩ := h
          split at h
          · next hzero =>
            obtain rfl := Option.some.inj h
            refine ⟨hc.sublist, hc.length, fun _ => ?_, hc.start, fun _ => hempty hzero, fun hs => absurd hs hopen,
              (by simp), hc.serves⟩
            rw [hclient] at hwhole
            exact hwhole
          · next hpos =>
            obtain rfl := Option.some.inj h
            refine ⟨hc.sublist, hc.length, fun _ => ?_, hc.start, (by simp), fun hs => absurd hs hopen, ?_, hc.serves⟩
            · rw [hclient, Client.held, List.append_nil] at hwhole
              rw [Client.held, List.drop_zero, List.append_assoc _ (List.take _ _), List.take_append_drop, hwhole]
            · intro buf written heq
              obtain ⟨rfl, rfl⟩ := Client.writing.inj heq
              rw [List.length_take]
              omega

theorem clientWrite_conserves {result : Result} (hc : Conserves file w consumed)
    (h : w.clientWrite result = some w') : Conserves file w' consumed := by
  cases hclient : w.client with
  | reading => simp [clientWrite, hclient] at h
  | exited success => simp [clientWrite, hclient] at h
  | writing buf written =>
      have hwhole := hc.whole (by simp [hclient])
      have hheld := hc.holds buf written hclient
      have hopen : w.server ≠ .exited true := by
        intro hs
        obtain ⟨_, success, hexited⟩ := hc.drained hs
        rw [hclient] at hexited
        cases hexited
      have hfails : Conserves file { w with client := .exited false } consumed :=
        ⟨hc.sublist, hc.length, fun hne => absurd rfl hne, hc.start, (by simp), fun hs => absurd hs hopen, (by simp),
          hc.serves⟩
      cases result with
      | interrupted =>
          obtain rfl : w = w' := by simpa [clientWrite, hclient] using h
          exact hc
      | failed =>
          obtain rfl : { w with client := .exited false } = w' := by simpa [clientWrite, hclient] using h
          exact hfails
      | bytes n =>
          simp only [clientWrite, hclient, Option.ite_none_right_eq_some] at h
          obtain ⟨hn, h⟩ := h
          rw [hclient, Client.held] at hwhole
          have hsplit : (buf.drop written).take n ++ buf.drop (written + n) = buf.drop written := by
            rw [← List.drop_drop, List.take_append_drop]
          have hstart : consumed ++ w.server.held ++ (w.sent ++ (buf.drop written).take n) <+: file := by
            refine ⟨buf.drop (written + n) ++ w.rest, ?_⟩
            rw [← hwhole]
            simp only [List.append_assoc]
            rw [← List.append_assoc (List.take n _), hsplit]
          split at h
          · obtain rfl := Option.some.inj h
            exact hfails
          · split at h
            · next hmore =>
              obtain rfl := Option.some.inj h
              refine ⟨hc.sublist, hc.length, fun _ => ?_, hstart, (by simp), fun hs => absurd hs hopen, ?_, hc.serves⟩
              · rw [← hwhole, Client.held]
                simp only [List.append_assoc]
                rw [← List.append_assoc (List.take n _), hsplit]
              · intro buf' written' heq
                obtain ⟨rfl, rfl⟩ := Client.writing.inj heq
                exact hmore
            · next hdone =>
              obtain rfl := Option.some.inj h
              have hnone : buf.drop (written + n) = [] := List.drop_eq_nil_of_le (by omega)
              refine ⟨hc.sublist, hc.length, fun _ => ?_, hstart, (by simp), fun hs => absurd hs hopen, (by simp),
                hc.serves⟩
              rw [hnone, List.append_nil] at hsplit
              rw [← hwhole, Client.held, hsplit]
              simp only [List.append_assoc, List.nil_append]

theorem serverRead_conserves {result : Result} (hc : Conserves file w consumed)
    (h : w.serverRead result = some w') : Conserves file w' consumed := by
  cases hserver : w.server with
  | writing buf => simp [serverRead, hserver] at h
  | exited success => simp [serverRead, hserver] at h
  | reading =>
      have hstart := hc.start
      rw [hserver, Server.held, List.append_nil] at hstart
      have hwhole (hne : w.client ≠ .exited false) : consumed ++ w.sent ++ w.client.held ++ w.rest = file := by
        have hall := hc.whole hne
        rwa [hserver, Server.held, List.append_nil] at hall
      have hends (success : Bool) (hsent : success = true → w.sent = [] ∧ ∃ b, w.client = .exited b) :
          Conserves file { w with server := .exited success } consumed := by
        refine ⟨hc.sublist, hc.length, fun hne => ?_, ?_, hc.ended, fun hs => hsent (Server.exited.inj hs), hc.holds,
          (by simp)⟩
        · rw [Server.held, List.append_nil]
          exact hwhole hne
        · rw [Server.held, List.append_nil]
          exact hstart
      cases result with
      | interrupted =>
          obtain rfl : { w with server := .exited false } = w' := by simpa [serverRead, hserver] using h
          exact hends false (by simp)
      | failed =>
          obtain rfl : { w with server := .exited false } = w' := by simpa [serverRead, hserver] using h
          exact hends false (by simp)
      | bytes n =>
          simp only [serverRead, hserver] at h
          split at h
          · split at h
            · next hsent hclient =>
              obtain rfl := Option.some.inj h
              exact hends true fun _ => ⟨hsent, _, hclient⟩
            · cases h
          · next hpos =>
            simp only [Option.ite_none_right_eq_some] at h
            obtain ⟨hn, h⟩ := h
            obtain rfl := Option.some.inj h
            refine ⟨hc.sublist, hc.length, fun hne => ?_, ?_, hc.ended, (by simp), hc.holds, ?_⟩
            · rw [Server.held, List.append_assoc consumed, List.take_append_drop]
              exact hwhole hne
            · rw [Server.held, List.append_assoc consumed, List.take_append_drop]
              exact hstart
            · intro buf heq
              obtain rfl := Server.writing.inj heq
              apply List.ne_nil_of_length_pos
              rw [List.length_take]
              omega

/-- The bytes of the buffer are consumed, also those that are left. -/
theorem serverWrite_conserves {result : Result} (hc : Conserves file w consumed)
    (h : w.serverWrite result = some w') : ∃ consumed', Conserves file w' consumed' := by
  cases hserver : w.server with
  | reading => simp [serverWrite, hserver] at h
  | exited success => simp [serverWrite, hserver] at h
  | writing buf =>
      have hstart := hc.start
      rw [hserver, Server.held] at hstart
      have hdone {output : Bytes} {left : Nat} (hsub : output.Sublist (consumed ++ buf))
          (hlen : output.length + left = (consumed ++ buf).length) :
          Conserves file { w with output := output, left := left, server := .reading } (consumed ++ buf) := by
        refine ⟨hsub, hlen, fun hne => ?_, ?_, hc.ended, (by simp), hc.holds, (by simp)⟩
        · have hall := hc.whole hne
          rw [hserver, Server.held] at hall
          rw [Server.held, List.append_nil]
          exact hall
        · rw [Server.held, List.append_nil]
          exact hstart
      have hlength := hc.length
      have hfails : Conserves file { w with left := w.left + buf.length, server := .reading } (consumed ++ buf) :=
        hdone (hc.sublist.trans (List.sublist_append_left _ _)) (by rw [List.length_append]; omega)
      refine ⟨consumed ++ buf, ?_⟩
      cases result with
      | interrupted =>
          obtain rfl : { w with left := w.left + buf.length, server := .reading } = w' := by
            simpa [serverWrite, hserver] using h
          exact hfails
      | failed =>
          obtain rfl : { w with left := w.left + buf.length, server := .reading } = w' := by
            simpa [serverWrite, hserver] using h
          exact hfails
      | bytes n =>
          simp only [serverWrite, hserver, Option.ite_none_right_eq_some] at h
          obtain ⟨hn, h⟩ := h
          obtain rfl := Option.some.inj h
          refine hdone (hc.sublist.append (List.take_sublist n buf)) ?_
          rw [List.length_append, List.length_append, List.length_take]
          omega

theorem step_conserves (w : Transfer) (a : Action) (w' : Transfer) (hc : ∃ consumed, Conserves file w consumed)
    (h : w.step a = some w') : ∃ consumed, Conserves file w' consumed := by
  obtain ⟨consumed, hc⟩ := hc
  cases a with
  | clientRead result => exact ⟨consumed, clientRead_conserves hc h⟩
  | clientWrite result => exact ⟨consumed, clientWrite_conserves hc h⟩
  | serverRead result => exact ⟨consumed, serverRead_conserves hc h⟩
  | serverWrite result => exact serverWrite_conserves hc h

theorem exec_conserves {acts : List Action} (h : exec step (init file) acts = some w) :
    ∃ consumed, Conserves file w consumed :=
  exec_invariant step_conserves acts ⟨[], conserves_init file⟩ h

/-- At any time the server has put out a part of the file in order, a first
part if it has left nothing. When both have ended well it has put out the file,
exactly if it has left nothing. -/
theorem output_spec {acts : List Action} (h : exec step (init file) acts = some w) :
    w.output.Sublist file ∧ (w.left = 0 → w.output <+: file) ∧
      (w.client = .exited true → w.server = .exited true → (w.output = file ↔ w.left = 0)) := by
  obtain ⟨consumed, hc⟩ := exec_conserves h
  have hlength := hc.length
  have hconsumed : consumed <+: file :=
    ((List.prefix_append consumed w.server.held).trans (List.prefix_append _ w.sent)).trans hc.start
  refine ⟨hc.sublist.trans hconsumed.sublist, ?_, ?_⟩
  · intro hleft
    rw [hc.sublist.eq_of_length (by omega)]
    exact hconsumed
  · intro hclient hserver
    have hwhole := hc.whole (by simp [hclient])
    rw [hc.ended hclient, (hc.drained hserver).1, hclient, hserver, Client.held, Server.held] at hwhole
    simp only [List.append_nil] at hwhole
    rw [hwhole] at hlength
    constructor
    · intro hout
      rw [hout] at hlength
      omega
    · intro hleft
      rw [← hwhole]
      exact hc.sublist.eq_of_length (by rw [hwhole]; omega)

/-- The server's last write takes no byte. -/
theorem output_spec_short : ∃ w : Transfer, exec step (init (ascii "abc".toList)) [.clientRead (.bytes 3),
    .clientWrite (.bytes 2), .serverRead (.bytes 2), .clientWrite .interrupted, .clientWrite (.bytes 1),
    .serverWrite (.bytes 2), .clientRead (.bytes 0), .serverRead (.bytes 1), .serverWrite (.bytes 0),
    .serverRead (.bytes 0)] = some w ∧ w.left = 1 ∧ w.output ≠ ascii "abc".toList := by
  have hruns : (exec step (init (ascii "abc".toList)) [.clientRead (.bytes 3), .clientWrite (.bytes 2),
      .serverRead (.bytes 2), .clientWrite .interrupted, .clientWrite (.bytes 1), .serverWrite (.bytes 2),
      .clientRead (.bytes 0), .serverRead (.bytes 1), .serverWrite (.bytes 0), .serverRead (.bytes 0)]).map
        (fun w => (w.client, w.server, w.left)) = some (.exited true, .exited true, 1) := by decide
  obtain ⟨w, hw, hends⟩ := Option.map_eq_some_iff.mp hruns
  obtain ⟨hclient, hrest⟩ := Prod.mk.inj hends
  obtain ⟨hserver, hleft⟩ := Prod.mk.inj hrest
  refine ⟨w, hw, hleft, ?_⟩
  rw [ne_eq, (output_spec hw).2.2 hclient hserver, hleft]
  decide

end Transfer

/-- The system calls that this state of the client may still take, besides
those for its bytes. -/
def Client.alive : Client → Nat
  | .exited _ => 0
  | .reading | .writing _ _ => 1

def Server.alive : Server → Nat
  | .exited _ => 0
  | .reading | .writing _ => 1

namespace Action

def result : Action → Result
  | .clientRead result | .clientWrite result | .serverRead result | .serverWrite result => result

/-- The client repeats an interrupted call. -/
def progress (a : Action) : Nat :=
  match a with
  | .clientRead .interrupted | .clientWrite .interrupted => 0
  | _ => 1

/-- The call does not fail. -/
def Works (a : Action) : Prop := ∃ n, a.result = .bytes n

end Action

namespace Transfer

variable {file consumed : Bytes} {w w' : Transfer}

/-- A byte is read, written, read and written. -/
def remaining (w : Transfer) : Nat :=
  4 * w.rest.length + 3 * w.client.held.length + 2 * w.sent.length + w.server.held.length + w.client.alive +
    w.server.alive

theorem clientRead_remaining {result : Result} (h : w.clientRead result = some w') :
    w'.remaining + (Action.clientRead result).progress ≤ w.remaining := by
  cases hclient : w.client with
  | writing buf written => simp [clientRead, hclient] at h
  | exited success => simp [clientRead, hclient] at h
  | reading =>
      cases result with
      | interrupted =>
          obtain rfl : w = w' := by simpa [clientRead, hclient] using h
          exact Nat.le_refl _
      | failed =>
          obtain rfl : { w with client := .exited false } = w' := by simpa [clientRead, hclient] using h
          simp only [remaining, hclient, Client.held, Client.alive, Action.progress]
          omega
      | bytes n =>
          simp only [clientRead, hclient, Option.ite_none_right_eq_some] at h
          obtain ⟨⟨hn, _⟩, h⟩ := h
          split at h
          · obtain rfl := Option.some.inj h
            simp only [remaining, hclient, Client.held, Client.alive, Action.progress]
            omega
          · obtain rfl := Option.some.inj h
            simp only [remaining, hclient, Client.held, Client.alive, Action.progress, List.length_drop,
              List.length_take, List.length_nil]
            omega

theorem clientWrite_remaining {result : Result} (hc : Conserves file w consumed)
    (h : w.clientWrite result = some w') :
    w'.remaining + (Action.clientWrite result).progress ≤ w.remaining := by
  cases hclient : w.client with
  | reading => simp [clientWrite, hclient] at h
  | exited success => simp [clientWrite, hclient] at h
  | writing buf written =>
      have hheld := hc.holds buf written hclient
      cases result with
      | interrupted =>
          obtain rfl : w = w' := by simpa [clientWrite, hclient] using h
          exact Nat.le_refl _
      | failed =>
          obtain rfl : { w with client := .exited false } = w' := by simpa [clientWrite, hclient] using h
          simp only [remaining, hclient, Client.held, Client.alive, Action.progress, List.length_nil]
          omega
      | bytes n =>
          simp only [clientWrite, hclient, Option.ite_none_right_eq_some] at h
          obtain ⟨hn, h⟩ := h
          split at h
          · obtain rfl := Option.some.inj h
            simp only [remaining, hclient, Client.held, Client.alive, Action.progress, List.length_nil]
            omega
          · split at h
            · obtain rfl := Option.some.inj h
              simp only [remaining, hclient, Client.held, Client.alive, Action.progress, List.length_append,
                List.length_take, List.length_drop]
              omega
            · obtain rfl := Option.some.inj h
              simp only [remaining, hclient, Client.held, Client.alive, Action.progress, List.length_append,
                List.length_take, List.length_drop, List.length_nil]
              omega

theorem serverRead_remaining {result : Result} (h : w.serverRead result = some w') :
    w'.remaining + (Action.serverRead result).progress ≤ w.remaining := by
  cases hserver : w.server with
  | writing buf => simp [serverRead, hserver] at h
  | exited success => simp [serverRead, hserver] at h
  | reading =>
      have hends (success : Bool) : { w with server := .exited success }.remaining + 1 ≤ w.remaining := by
        simp only [remaining, hserver, Server.held, Server.alive]
        omega
      cases result with
      | interrupted =>
          obtain rfl : { w with server := .exited false } = w' := by simpa [serverRead, hserver] using h
          exact hends false
      | failed =>
          obtain rfl : { w with server := .exited false } = w' := by simpa [serverRead, hserver] using h
          exact hends false
      | bytes n =>
          simp only [serverRead, hserver] at h
          split at h
          · split at h
            · obtain rfl := Option.some.inj h
              exact hends true
            · cases h
          · simp only [Option.ite_none_right_eq_some] at h
            obtain ⟨hn, h⟩ := h
            obtain rfl := Option.some.inj h
            simp only [remaining, hserver, Server.held, Server.alive, Action.progress, List.length_drop,
              List.length_take, List.length_nil]
            omega

theorem serverWrite_remaining {result : Result} (hc : Conserves file w consumed)
    (h : w.serverWrite result = some w') :
    w'.remaining + (Action.serverWrite result).progress ≤ w.remaining := by
  cases hserver : w.server with
  | reading => simp [serverWrite, hserver] at h
  | exited success => simp [serverWrite, hserver] at h
  | writing buf =>
      have hpos := List.length_pos_of_ne_nil (hc.serves buf hserver)
      have hdone (output : Bytes) (left : Nat) :
          { w with output := output, left := left, server := .reading }.remaining + 1 ≤ w.remaining := by
        simp only [remaining, hserver, Server.held, Server.alive, List.length_nil]
        omega
      cases result with
      | interrupted =>
          obtain rfl : { w with left := w.left + buf.length, server := .reading } = w' := by
            simpa [serverWrite, hserver] using h
          exact hdone w.output _
      | failed =>
          obtain rfl : { w with left := w.left + buf.length, server := .reading } = w' := by
            simpa [serverWrite, hserver] using h
          exact hdone w.output _
      | bytes n =>
          simp only [serverWrite, hserver, Option.ite_none_right_eq_some] at h
          obtain ⟨_, h⟩ := h
          obtain rfl := Option.some.inj h
          exact hdone _ _

theorem step_remaining (w : Transfer) (a : Action) (w' : Transfer) (hc : ∃ consumed, Conserves file w consumed)
    (_ : True) (h : w.step a = some w') :
    (∃ consumed, Conserves file w' consumed) ∧ w'.remaining + a.progress ≤ w.remaining + 0 := by
  refine ⟨step_conserves w a w' hc h, ?_⟩
  obtain ⟨consumed, hc⟩ := hc
  cases a with
  | clientRead result => exact clientRead_remaining h
  | clientWrite result => exact clientWrite_remaining hc h
  | serverRead result => exact serverRead_remaining h
  | serverWrite result => exact serverWrite_remaining hc h

/-- Before both have ended, one of them has a call that can succeed. -/
theorem exists_works (hc : Conserves file w consumed) :
    (∃ a : Action, a.Works ∧ (w.step a).isSome = true) ∨
      (∃ success, w.client = .exited success) ∧ ∃ success, w.server = .exited success := by
  cases hclient : w.client with
  | reading =>
      left
      by_cases hrest : w.rest = []
      · refine ⟨.clientRead (.bytes 0), ⟨0, rfl⟩, ?_⟩
        simp [step, clientRead, hclient, hrest]
      · have hpos := List.length_pos_of_ne_nil hrest
        have hread : (1 : Nat) ≤ min BUFSIZE w.rest.length := Nat.le_min.mpr ⟨by decide, hpos⟩
        refine ⟨.clientRead (.bytes 1), ⟨1, rfl⟩, ?_⟩
        simp [step, clientRead, hclient, hread]
  | writing buf written =>
      left
      have hheld := hc.holds buf written hclient
      have hwrite : 1 ≤ buf.length - written := by omega
      refine ⟨.clientWrite (.bytes 1), ⟨1, rfl⟩, ?_⟩
      simp only [step, clientWrite, hclient]
      rw [if_pos hwrite, if_neg (by decide)]
      split <;> rfl
  | exited success =>
      cases hserver : w.server with
      | exited success' => exact .inr ⟨⟨success, rfl⟩, success', rfl⟩
      | writing buf =>
          refine .inl ⟨.serverWrite (.bytes buf.length), ⟨buf.length, rfl⟩, ?_⟩
          simp [step, serverWrite, hserver]
      | reading =>
          left
          cases hsent : w.sent with
          | nil =>
              refine ⟨.serverRead (.bytes 0), ⟨0, rfl⟩, ?_⟩
              simp [step, serverRead, hserver, hsent, hclient]
          | cons b rest =>
              have hread : (1 : Nat) ≤ min bufSize w.sent.length := by
                rw [hsent]
                exact Nat.le_min.mpr ⟨by decide, Nat.succ_le_succ (Nat.zero_le _)⟩
              refine ⟨.serverRead (.bytes 1), ⟨1, rfl⟩, ?_⟩
              simp [step, serverRead, hserver, hread]

/-- No run goes on for longer than the file is long, and none gets stuck. -/
theorem transfer_ends {acts : List Action} (h : exec step (init file) acts = some w) :
    (acts.map Action.progress).sum ≤ 4 * file.length + 2 ∧
      ((∀ a : Action, a.Works → w.step a = none) →
        (∃ success, w.client = .exited success) ∧ ∃ success, w.server = .exited success) := by
  obtain ⟨⟨consumed, hc⟩, hcost⟩ := exec_cost step_remaining acts (fun _ _ => trivial)
    ⟨[], conserves_init file⟩ h
  constructor
  · have hstart : (init file).remaining = 4 * file.length + 2 := by
      simp [remaining, init, Client.held, Server.held, Client.alive, Server.alive]
    have hgain : (acts.map fun _ : Action => 0).sum = 0 := by simp
    omega
  · intro hstuck
    rcases exists_works hc with ⟨a, hworks, hstep⟩ | hended
    · rw [hstuck a hworks] at hstep
      cases hstep
    · exact hended

theorem transfer_ends_empty : ∃ w : Transfer, exec step (init []) [.clientRead .interrupted, .clientRead (.bytes 0),
    .serverRead (.bytes 0)] = some w ∧ (∃ success, w.client = .exited success) ∧
      ∃ success, w.server = .exited success := by
  have hruns : exec step (init []) [.clientRead .interrupted, .clientRead (.bytes 0), .serverRead (.bytes 0)] =
      some ⟨[], .exited true, [], .exited true, [], 0⟩ := by decide
  refine ⟨_, hruns, (transfer_ends hruns).2 ?_⟩
  rintro a ⟨n, hn⟩
  cases a with
  | clientRead result => rfl
  | clientWrite result => rfl
  | serverRead result => rfl
  | serverWrite result => rfl

end Transfer

end SearchEngine.FileTransfer
