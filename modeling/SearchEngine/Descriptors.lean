import SearchEngine.HttpConnection
import SearchEngine.Library.Transition

namespace SearchEngine.Descriptors

open Transition Framing HttpConnection

abbrev Fd := Nat

/-- Connections are named by the number of the accept that returned them. -/
abbrev Conn := Nat

/-- The fields of a HttpServerTask that matter here. The code has only the
descriptor; the connection records what the descriptor was accepted for. -/
structure Task where
  clientFd : Fd
  conn : Conn
  deriving DecidableEq

/-- Where a worker is in HttpServer_ThrFn. The number counts the iterations
of the loop that are over. -/
inductive Pc
  | idle
  | test (t : Task) (done : Bool) (iterations : Nat)
  | reading (t : Task) (iterations : Nat) (buffer : Bytes)
  | writing (t : Task) (iterations : Nat) (req : HttpRequest)
  | closing (t : Task) (iterations : Nat) (done : Bool)

inductive Kind
  | read
  | write
  | close
  deriving DecidableEq

/-- A system call on the descriptor of a task, and the connection it reached:
none when the descriptor was not open. -/
structure Call where
  kind : Kind
  conn : Conn
  target : Option Conn
  deriving DecidableEq

inductive WriteResult
  | more
  | finished
  | failed
  deriving DecidableEq

structure Server (n : Nat) where
  table : Fd → Option Conn
  accepted : Nat
  queue : List Task
  pc : Fin n → Pc
  calls : List Call

inductive Action (n : Nat)
  | accept (fd : Fd)
  | pickUp (w : Fin n)
  | test (w : Fin n)
  | read (w : Fin n) (result : Option Chunk)
  | write (w : Fin n) (result : WriteResult)
  | close (w : Fin n)

namespace Server

variable {n : Nat}

def init (n : Nat) : Server n where
  table _ := none
  accepted := 0
  queue := []
  pc _ := .idle
  calls := []

def setPc (s : Server n) (w : Fin n) (x : Pc) : Server n := { s with pc := Function.update s.pc w x }

def log (s : Server n) (kind : Kind) (t : Task) : Server n :=
  { s with calls := s.calls ++ [⟨kind, t.conn, s.table t.clientFd⟩] }

/-- One system call of the main thread or of a worker, or one test of the
worker's loop condition. Calls on a descriptor that is not open fail. -/
def step (s : Server n) : Action n → Option (Server n)
  | .accept fd =>
      if s.table fd = none then
        some { s with
          table := Function.update s.table fd (some s.accepted)
          accepted := s.accepted + 1
          queue := s.queue ++ [⟨fd, s.accepted⟩] }
      else none
  | .pickUp w =>
      match s.pc w, s.queue with
      | .idle, t :: rest => some { s.setPc w (.test t false 0) with queue := rest }
      | _, _ => none
  | .test w =>
      match s.pc w with
      | .test _ true _ => some (s.setPc w .idle)
      | .test t false k => some (s.setPc w (.reading t k HttpConnection.init.buffer))
      | _ => none
  | .read w result =>
      match s.pc w with
      | .reading t k buffer =>
          if s.table t.clientFd = none ∧ result.isSome then none
          else
            match result with
            | none => some ((s.log .read t).setPc w (.closing t k true))
            | some chunk =>
                let buffer := buffer ++ chunk.bytes
                match find kHeaderEnd buffer with
                | none => some ((s.log .read t).setPc w (.reading t k buffer))
                | some pos =>
                    let req := parseRequest (buffer.take (pos + kHeaderEnd.length))
                    some ((s.log .read t).setPc w (.writing t k req))
      | _ => none
  | .write w result =>
      match s.pc w with
      | .writing t k req =>
          if s.table t.clientFd = none ∧ result ≠ .failed then none
          else
            match result with
            | .more => some (s.log .write t)
            | .failed => some ((s.log .write t).setPc w (.closing t k true))
            | .finished =>
                let done := req.getHeaderValue (ascii ['C', 'o', 'n', 'n', 'e', 'c', 't', 'i', 'o', 'n']) ==
                  ascii ['c', 'l', 'o', 's', 'e']
                some ((s.log .write t).setPc w (.closing t k done))
      | _ => none
  | .close w =>
      match s.pc w with
      | .closing t k done =>
          let s' := (s.log .close t).setPc w (.test t done (k + 1))
          some { s' with table := Function.update s.table t.clientFd none }
      | _ => none

def closesOf (s : Server n) (c : Conn) : Nat :=
  s.calls.countP fun call => call.kind = .close ∧ call.target = some c

/-- Every call reached the connection of its own task, and exactly the
connections that are no longer open have been closed, once each. -/
structure NonInterfering (s : Server n) : Prop where
  own : ∀ call ∈ s.calls, call.target = some call.conn
  open_ : ∀ fd c, s.table fd = some c → s.closesOf c = 0
  closed : ∀ c : Nat, c < s.accepted → (∀ fd, s.table fd ≠ some c) → s.closesOf c = 1

/-- The action does not start a second iteration of a worker's loop. -/
def SingleIteration (s : Server n) : Action n → Prop
  | .test w =>
      match s.pc w with
      | .test _ false (_ + 1) => False
      | _ => True
  | _ => True

instance (s : Server n) (a : Action n) : Decidable (SingleIteration s a) := by
  unfold SingleIteration
  split
  · split
    · exact isFalse id
    · exact isTrue trivial
  · exact isTrue trivial

end Server

def Pc.task? : Pc → Option Task
  | .test t _ 0 | .reading t _ _ | .writing t _ _ | .closing t _ _ => some t
  | .test _ _ (_ + 1) | .idle => none

def Pc.First : Pc → Prop
  | .idle => True
  | .test _ done k => k = 0 → done = false
  | .reading _ k _ | .writing _ k _ | .closing _ k _ => k = 0

def Pc.live (c : Conn) (x : Pc) : Nat := if x.task?.map Task.conn = some c then 1 else 0

namespace Server

variable {n : Nat}

def live (s : Server n) (c : Conn) : Nat := (s.queue.map Task.conn).count c + total (Pc.live c) s.pc

/-- The invariant of the runs in which no worker starts a second iteration. -/
structure Separated (s : Server n) : Prop where
  own : ∀ call ∈ s.calls, call.target = some call.conn
  fresh : ∀ fd (c : Nat), s.table fd = some c → c < s.accepted
  injective : ∀ fd fd' c, s.table fd = some c → s.table fd' = some c → fd = fd'
  queued : ∀ t ∈ s.queue, s.table t.clientFd = some t.conn
  working : ∀ w, ∀ t ∈ (s.pc w).task?, s.table t.clientFd = some t.conn
  first : ∀ w, (s.pc w).First
  openLive : ∀ fd c, s.table fd = some c → s.live c = 1
  account : ∀ c : Nat, c < s.accepted → s.live c + s.closesOf c = 1
  unused : ∀ c : Nat, s.accepted ≤ c → s.live c = 0 ∧ s.closesOf c = 0

theorem init_separated : (init n).Separated where
  own := by simp [init]
  fresh := by simp [init]
  injective := by simp [init]
  queued := by simp [init]
  working := by simp [init, Pc.task?]
  first _ := trivial
  openLive := by simp [init]
  account := by simp [init]
  unused c _ := by
    have hpc : total (Pc.live c) (init n).pc = 0 := total_eq_zero fun _ => rfl
    exact ⟨by rw [live, hpc]; rfl, rfl⟩

theorem live_eq_one_of_task {s : Server n} {w : Fin n} {t : Task} (ht : (s.pc w).task? = some t) :
    (s.pc w).live t.conn = 1 := by
  simp [Pc.live, ht]

theorem Separated.move {s s' : Server n} (h : s.Separated) {w : Fin n} {x : Pc}
    (hpc : s'.pc = Function.update s.pc w x) (htable : s'.table = s.table)
    (haccepted : s'.accepted = s.accepted) (hqueue : s'.queue = s.queue)
    (hown : ∀ call ∈ s'.calls, call.target = some call.conn)
    (hcloses : ∀ c, s'.closesOf c = s.closesOf c) (htask : x.task? = (s.pc w).task?) (hfirst : x.First) :
    s'.Separated := by
  have hlive (c : Conn) : s'.live c = s.live c := by
    have hsum := total_update (Pc.live c) s.pc w x
    have hx : x.live c = (s.pc w).live c := by rw [Pc.live, Pc.live, htask]
    rw [live, live, hpc, hqueue]
    omega
  exact {
    own := hown
    fresh := by rw [htable, haccepted]; exact h.fresh
    injective := by rw [htable]; exact h.injective
    queued := by rw [htable, hqueue]; exact h.queued
    working := by
      rw [hpc, htable, Function.forall_update_iff s.pc fun _ x => ∀ t ∈ x.task?, s.table t.clientFd = some t.conn,
        htask]
      exact ⟨h.working w, fun v _ => h.working v⟩
    first := by
      rw [hpc, Function.forall_update_iff s.pc fun _ x => x.First]
      exact ⟨hfirst, fun v _ => h.first v⟩
    openLive := fun fd c hfd => by rw [hlive]; exact h.openLive fd c (htable ▸ hfd)
    account := fun c hc => by rw [hlive, hcloses]; exact h.account c (haccepted ▸ hc)
    unused := fun c hc => by rw [hlive, hcloses]; exact h.unused c (haccepted ▸ hc) }

theorem own_log {s : Server n} (h : s.Separated) {t : Task} (ht : s.table t.clientFd = some t.conn)
    (kind : Kind) : ∀ call ∈ (s.log kind t).calls, call.target = some call.conn := by
  intro call hcall
  rcases List.mem_append.mp hcall with hcall | hcall
  · exact h.own call hcall
  · obtain rfl := List.mem_singleton.mp hcall
    exact ht

theorem closesOf_log (s : Server n) (kind : Kind) (t : Task) (c : Conn) :
    (s.log kind t).closesOf c =
      s.closesOf c + if kind = .close ∧ s.table t.clientFd = some c then 1 else 0 := by
  simp [closesOf, log, List.countP_append, List.countP_singleton]

theorem Separated.call {s : Server n} (h : s.Separated) {w : Fin n} {t : Task} {x : Pc} {kind : Kind}
    (hkind : kind ≠ .close) (htask : (s.pc w).task? = some t) (hx : x.task? = some t) (hfirst : x.First) :
    ((s.log kind t).setPc w x).Separated := by
  have ht := h.working w t htask
  refine h.move (x := x) rfl rfl rfl rfl (own_log h ht kind) (fun c => ?_) (hx.trans htask.symm) hfirst
  exact (closesOf_log s kind t c).trans (by simp [hkind])

theorem accept_separated {s s' : Server n} {fd : Fd} (h : s.Separated)
    (hstep : s.step (.accept fd) = some s') : s'.Separated := by
  simp only [step, Option.ite_none_right_eq_some, Option.some.injEq] at hstep
  obtain ⟨hfree, rfl⟩ := hstep
  have hlive (c : Nat) : live { s with
      table := Function.update s.table fd (some s.accepted)
      accepted := s.accepted + 1
      queue := s.queue ++ [⟨fd, s.accepted⟩] } c = s.live c + if s.accepted = c then 1 else 0 := by
    simp only [live, List.map_append, List.count_append, List.map_cons, List.map_nil, List.count_singleton,
      beq_iff_eq]
    omega
  have hsame (t : Task) (ht : s.table t.clientFd = some t.conn) :
      Function.update s.table fd (some s.accepted) t.clientFd = some t.conn := by
    have hne : t.clientFd ≠ fd := fun he => by simp [he, hfree] at ht
    rw [Function.update_of_ne hne, ht]
  have htable (fd' : Fd) (c : Nat) (hfd : Function.update s.table fd (some s.accepted) fd' = some c) :
      (fd' = fd ∧ c = s.accepted) ∨ (fd' ≠ fd ∧ s.table fd' = some c ∧ c < s.accepted) := by
    by_cases he : fd' = fd
    · subst he
      rw [Function.update_self] at hfd
      exact .inl ⟨rfl, (Option.some.inj hfd).symm⟩
    · rw [Function.update_of_ne he] at hfd
      exact .inr ⟨he, hfd, h.fresh fd' c hfd⟩
  exact {
    own := h.own
    fresh := fun fd' c hfd => by
      obtain ⟨_, rfl⟩ | ⟨_, _, hc⟩ := htable fd' c hfd
      · exact Nat.lt_succ_self _
      · exact Nat.lt_succ_of_lt hc
    injective := fun fd₁ fd₂ c h₁ h₂ => by
      obtain ⟨rfl, hc⟩ | ⟨_, h₁, hc⟩ := htable fd₁ c h₁
      · obtain ⟨rfl, _⟩ | ⟨_, _, hc'⟩ := htable fd₂ c h₂
        · rfl
        · omega
      · obtain ⟨rfl, hc'⟩ | ⟨_, h₂, _⟩ := htable fd₂ c h₂
        · omega
        · exact h.injective fd₁ fd₂ c h₁ h₂
    queued := fun t ht => by
      rcases List.mem_append.mp ht with ht | ht
      · exact hsame t (h.queued t ht)
      · obtain rfl := List.mem_singleton.mp ht
        exact Function.update_self ..
    working := fun w t ht => hsame t (h.working w t ht)
    first := h.first
    openLive := fun fd' c hfd => by
      rw [hlive]
      obtain ⟨_, rfl⟩ | ⟨_, hfd, hc⟩ := htable fd' c hfd
      · simp [(h.unused s.accepted (Nat.le_refl _)).1]
      · rw [h.openLive fd' c hfd, if_neg (by omega)]
    account := fun c hc => by
      rw [hlive]
      change s.live c + _ + s.closesOf c = 1
      rcases Nat.lt_succ_iff_lt_or_eq.mp hc with hlt | rfl
      · rw [if_neg (by omega)]
        exact h.account c hlt
      · have hnone := h.unused s.accepted (Nat.le_refl _)
        simp [hnone.1, hnone.2]
    unused := fun c hc => by
      rw [hlive]
      have hle : s.accepted + 1 ≤ c := hc
      rw [if_neg (by omega)]
      exact h.unused c (by omega) }

theorem pickUp_separated {s s' : Server n} {w : Fin n} (h : s.Separated)
    (hstep : s.step (.pickUp w) = some s') : s'.Separated := by
  simp only [step] at hstep
  split at hstep
  · next t rest hw hq =>
    obtain rfl := Option.some.inj hstep
    have hlive (c : Conn) : live { s.setPc w (.test t false 0) with queue := rest } c = s.live c := by
      have hsum := total_update (Pc.live c) s.pc w (.test t false 0)
      have hidle : (s.pc w).live c = 0 := by rw [hw]; rfl
      have htest : (Pc.test t false 0).live c = if t.conn = c then 1 else 0 := by
        simp [Pc.live, Pc.task?]
      simp only [live, hq, setPc, List.map_cons, List.count_cons, beq_iff_eq]
      omega
    exact { h with
      queued := fun u hu => h.queued u (by rw [hq]; exact List.mem_cons_of_mem t hu)
      working := by
        apply (Function.forall_update_iff s.pc fun _ x => ∀ u ∈ x.task?, s.table u.clientFd = some u.conn).mpr
        refine ⟨?_, fun v _ => h.working v⟩
        intro u hu
        obtain rfl : t = u := Option.some.inj hu
        exact h.queued t (by rw [hq]; exact List.mem_cons_self)
      first := by
        apply (Function.forall_update_iff s.pc fun _ x => x.First).mpr
        exact ⟨fun _ => rfl, fun v _ => h.first v⟩
      openLive := fun fd c hfd => by rw [hlive]; exact h.openLive fd c hfd
      account := fun c hc => by rw [hlive]; exact h.account c hc
      unused := fun c hc => by rw [hlive]; exact h.unused c hc }
  · cases hstep

section

variable {s : Server n} {w : Fin n} {t : Task} {k : Nat} {done : Bool}

/-- Closing takes the connection out of the table for good. -/
theorem Separated.table_closed (h : s.Separated) (ht : s.table t.clientFd = some t.conn) {fd : Fd} {c : Nat}
    (hfd : Function.update s.table t.clientFd none fd = some c) : s.table fd = some c ∧ c ≠ t.conn := by
  have hne : fd ≠ t.clientFd := by
    rintro rfl
    simp at hfd
  rw [Function.update_of_ne hne] at hfd
  refine ⟨hfd, ?_⟩
  rintro rfl
  exact hne (h.injective fd t.clientFd t.conn hfd ht)

theorem table_kept (ht : s.table t.clientFd = some t.conn) {u : Task} (hu : s.table u.clientFd = some u.conn)
    (hne : u.conn ≠ t.conn) : Function.update s.table t.clientFd none u.clientFd = some u.conn := by
  have hfd : u.clientFd ≠ t.clientFd := by
    intro he
    rw [he, ht] at hu
    exact hne (Option.some.inj hu).symm
  rw [Function.update_of_ne hfd, hu]

/-- The task of a worker that closes its connection is no longer live. -/
theorem live_closed (hw : s.pc w = .closing t k done) {s' : Server n} (hqueue : s'.queue = s.queue)
    (hpc : s'.pc = Function.update s.pc w (.test t done (k + 1))) (c : Nat) :
    s'.live c + (if t.conn = c then 1 else 0) = s.live c := by
  have hsum := total_update (Pc.live c) s.pc w (.test t done (k + 1))
  have hbefore : (s.pc w).live c = if t.conn = c then 1 else 0 := by simp [hw, Pc.live, Pc.task?]
  have hafter : (Pc.test t done (k + 1)).live c = 0 := rfl
  rw [live, live, hpc, hqueue]
  omega

end

theorem close_separated {s s' : Server n} {w : Fin n} (h : s.Separated)
    (hstep : s.step (.close w) = some s') : s'.Separated := by
  simp only [step] at hstep
  split at hstep
  · next t k done hw =>
    obtain rfl := Option.some.inj hstep
    have ht := h.working w t (by rw [hw]; rfl)
    let s' : Server n := { (s.log .close t).setPc w (.test t done (k + 1)) with
      table := Function.update s.table t.clientFd none }
    change s'.Separated
    have hpc : s'.pc = Function.update s.pc w (.test t done (k + 1)) := rfl
    have hlive : ∀ c : Nat, s'.live c + (if t.conn = c then 1 else 0) = s.live c := live_closed hw rfl hpc
    have hcloses (c : Nat) : s'.closesOf c = s.closesOf c + if t.conn = c then 1 else 0 :=
      (closesOf_log s .close t c).trans (by simp [ht])
    -- nobody else has this connection, so no other task loses its descriptor
    have hgone : s'.live t.conn = 0 := by
      have hone := h.openLive t.clientFd t.conn ht
      have hdrop := hlive t.conn
      rw [if_pos rfl] at hdrop
      omega
    rw [live] at hgone
    exact {
      own := own_log h ht .close
      fresh := fun fd c hfd => h.fresh fd c (h.table_closed ht hfd).1
      injective := fun fd fd' c h₁ h₂ => h.injective fd fd' c (h.table_closed ht h₁).1 (h.table_closed ht h₂).1
      queued := by
        intro u hu
        refine table_kept ht (h.queued u hu) ?_
        intro he
        have hcount : 0 < (s'.queue.map Task.conn).count t.conn :=
          List.count_pos_iff.mpr (he ▸ List.mem_map_of_mem hu)
        omega
      working := by
        intro v u hu
        by_cases hv : v = w
        · subst hv
          simp [hpc, Pc.task?] at hu
        · have hu' : u ∈ (s.pc v).task? := by rwa [hpc, Function.update_of_ne hv] at hu
          refine table_kept ht (h.working v u hu') ?_
          intro he
          have hle := le_total (Pc.live t.conn) s'.pc v
          have hlv := live_eq_one_of_task hu
          rw [he] at hlv
          omega
      first := by
        rw [hpc, Function.forall_update_iff s.pc fun _ x => x.First]
        exact ⟨fun hk => absurd hk (Nat.succ_ne_zero k), fun v _ => h.first v⟩
      openLive := by
        intro fd c hfd
        obtain ⟨hfd, hne⟩ := h.table_closed ht hfd
        have hdrop := hlive c
        rw [if_neg (Ne.symm hne), h.openLive fd c hfd] at hdrop
        exact hdrop
      account := by
        intro c hc
        have hdrop := hlive c
        have hadd := hcloses c
        have hacc := h.account c hc
        omega
      unused := by
        intro c hc
        have hlt := h.fresh _ _ ht
        have hle : s.accepted ≤ c := hc
        have hne : t.conn ≠ c := by
          rintro rfl
          exact Nat.not_lt_of_le hle hlt
        have hdrop := hlive c
        have hadd := hcloses c
        have hun := h.unused c hc
        rw [if_neg hne] at hdrop hadd
        omega }
  · cases hstep

theorem test_separated {s s' : Server n} {w : Fin n} (h : s.Separated)
    (hsingle : SingleIteration s (.test w)) (hstep : s.step (.test w) = some s') : s'.Separated := by
  have hfirst := h.first w
  simp only [step] at hstep
  split at hstep
  · next t k hw =>
    obtain rfl := Option.some.inj hstep
    refine h.move (x := .idle) rfl rfl rfl rfl h.own (fun _ => rfl) ?_ trivial
    cases k with
    | zero => simp [hw, Pc.First] at hfirst
    | succ k => rw [hw]; rfl
  · next t k hw =>
    obtain rfl := Option.some.inj hstep
    cases k with
    | zero => exact h.move (x := .reading t 0 _) rfl rfl rfl rfl h.own (fun _ => rfl) (by rw [hw]; rfl) rfl
    | succ k => simp [SingleIteration, hw] at hsingle
  · cases hstep

theorem read_separated {s s' : Server n} {w : Fin n} {result : Option Chunk} (h : s.Separated)
    (hstep : s.step (.read w result) = some s') : s'.Separated := by
  have hfirst := h.first w
  simp only [step] at hstep
  split at hstep
  · next t k buffer hw =>
    have htask : (s.pc w).task? = some t := by rw [hw]; rfl
    rw [hw] at hfirst
    split at hstep
    · cases hstep
    · split at hstep
      · obtain rfl := Option.some.inj hstep
        exact h.call (by simp) htask rfl hfirst
      · split at hstep
        · obtain rfl := Option.some.inj hstep
          exact h.call (by simp) htask rfl hfirst
        · obtain rfl := Option.some.inj hstep
          exact h.call (by simp) htask rfl hfirst
  · cases hstep

theorem write_separated {s s' : Server n} {w : Fin n} {result : WriteResult} (h : s.Separated)
    (hstep : s.step (.write w result) = some s') : s'.Separated := by
  have hfirst := h.first w
  simp only [step] at hstep
  split at hstep
  · next t k req hw =>
    have htask : (s.pc w).task? = some t := by rw [hw]; rfl
    rw [hw] at hfirst
    split at hstep
    · cases hstep
    · split at hstep
      · obtain rfl := Option.some.inj hstep
        have hstay : ((s.log .write t).setPc w (.writing t k req)).Separated :=
          h.call (by simp) htask rfl hfirst
        rwa [setPc, ← hw, log, Function.update_eq_self] at hstay
      · obtain rfl := Option.some.inj hstep
        exact h.call (by simp) htask rfl hfirst
      · obtain rfl := Option.some.inj hstep
        exact h.call (by simp) htask rfl hfirst
  · cases hstep

theorem step_separated (s : Server n) (a : Action n) (s' : Server n) (h : s.Separated)
    (hsingle : SingleIteration s a) (hstep : s.step a = some s') : s'.Separated := by
  cases a with
  | accept fd => exact accept_separated h hstep
  | pickUp w => exact pickUp_separated h hstep
  | test w => exact test_separated h hsingle hstep
  | read w result => exact read_separated h hstep
  | write w result => exact write_separated h hstep
  | close w => exact close_separated h hstep

theorem Separated.nonInterfering {s : Server n} (h : s.Separated) : s.NonInterfering where
  own := h.own
  open_ fd c hfd := by
    have hlive := h.openLive fd c hfd
    have hacc := h.account c (h.fresh fd c hfd)
    omega
  closed c hc hclosed := by
    have hacc := h.account c hc
    have hqueue : (s.queue.map Task.conn).count c = 0 := List.count_eq_zero.mpr fun hmem => by
      obtain ⟨t, ht, rfl⟩ := List.mem_map.mp hmem
      exact hclosed _ (h.queued t ht)
    have hwork : total (Pc.live c) s.pc = 0 := total_eq_zero fun w => if_neg fun hw => by
      obtain ⟨t, ht, rfl⟩ := Option.map_eq_some_iff.mp hw
      exact hclosed _ (h.working w t ht)
    rw [live, hqueue, hwork] at hacc
    omega

/-- In a run in which no worker starts a second iteration of its loop, the
connections do not interfere. -/
theorem single_iteration_nonInterfering (acts : List (Action n)) (s : Server n)
    (hsingle : Along step SingleIteration (init n) acts) (hexec : exec step (init n) acts = some s) :
    s.NonInterfering :=
  (exec_invariant_along (I := Separated) step_separated acts init_separated hsingle hexec).nonInterfering

def getRequest : Chunk :=
  ⟨ascii ['G', 'E', 'T', ' ', '/', '\r', '\n', '\r', '\n'], by decide, by decide⟩

theorem single_iteration_nonInterfering_reused :
    ∃ s : Server 2, exec step (init 2)
        [.accept 4, .pickUp 0, .test 0, .read 0 (some getRequest), .write 0 .finished, .close 0,
          .accept 4, .pickUp 1, .test 1, .read 1 none, .close 1, .test 1] = some s ∧
      s.calls = [⟨.read, 0, some 0⟩, ⟨.write, 0, some 0⟩, ⟨.close, 0, some 0⟩,
        ⟨.read, 1, some 1⟩, ⟨.close, 1, some 1⟩] ∧ s.NonInterfering := by
  have hcalls : (exec step (init 2)
      [.accept 4, .pickUp 0, .test 0, .read 0 (some getRequest), .write 0 .finished, .close 0,
        .accept 4, .pickUp 1, .test 1, .read 1 none, .close 1, .test 1]).map calls =
      some [⟨.read, 0, some 0⟩, ⟨.write, 0, some 0⟩, ⟨.close, 0, some 0⟩,
        ⟨.read, 1, some 1⟩, ⟨.close, 1, some 1⟩] := by decide
  obtain ⟨s, hs, hcalls⟩ := Option.map_eq_some_iff.mp hcalls
  exact ⟨s, hs, hcalls, single_iteration_nonInterfering _ s (by decide) hs⟩

/-- The first worker's second iteration reads the request of the client that
was accepted on the same descriptor in between. -/
theorem reads_foreign_connection :
    ∃ s : Server 2, exec step (init 2)
        [.accept 4, .pickUp 0, .test 0, .read 0 (some getRequest), .write 0 .finished, .close 0,
          .accept 4, .pickUp 1, .test 0, .read 0 (some getRequest)] = some s ∧
      ⟨.read, 0, some 1⟩ ∈ s.calls ∧ ¬s.NonInterfering := by
  have hcalls : (exec step (init 2)
      [.accept 4, .pickUp 0, .test 0, .read 0 (some getRequest), .write 0 .finished, .close 0,
        .accept 4, .pickUp 1, .test 0, .read 0 (some getRequest)]).map calls =
      some [⟨.read, 0, some 0⟩, ⟨.write, 0, some 0⟩, ⟨.close, 0, some 0⟩, ⟨.read, 0, some 1⟩] := by decide
  obtain ⟨s, hs, hcalls⟩ := Option.map_eq_some_iff.mp hcalls
  have hmem : (⟨.read, 0, some 1⟩ : Call) ∈ s.calls := by simp [hcalls]
  exact ⟨s, hs, hmem, fun h => absurd (h.own _ hmem) (by decide)⟩

end Server

end SearchEngine.Descriptors
