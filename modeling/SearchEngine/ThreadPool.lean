import SearchEngine.Library.Transition

namespace SearchEngine.ThreadPool

open Transition

/-- Tasks are named by the number of the Dispatch call that brought them. -/
abbrev Task := Nat

/-- Where a worker is between two sections of code that hold q_lock_. -/
inductive Pc
  | unborn
  | born
  | waiting
  | signaled
  | picked (nextTask : Task)
  | running (nextTask : Task)
  | returned
  | exited
  deriving DecidableEq, Repr

inductive Owner
  | constructing
  | starting
  | ready
  | joining (numThreads i : Nat)
  | draining
  | drainPicked (nextTask : Task)
  | drainRunning (nextTask : Task)
  | destroyed
  | failed
  deriving DecidableEq, Repr

inductive Executor (n : Nat)
  | worker (w : Fin n)
  | destructor
  deriving DecidableEq, Repr

/-- The pool with n workers. The last three fields only record what happened:
the number of Dispatch calls, and the task functions called and returned. -/
structure Pool (n : Nat) where
  workQueue : List Task
  terminateThreads : Bool
  numThreadsRunning : Nat
  pc : Fin n → Pc
  owner : Owner
  dispatched : Nat
  invoked : List (Executor n × Task)
  completed : List (Executor n × Task)

inductive Action (n : Nat)
  | construct
  | poll
  | work (w : Fin n)
  | wakeUp (w : Fin n)
  | dispatch (woken : List (Fin n))
  | destroy
  | join
  | drain

namespace Pool

variable {n : Nat}

def init (n : Nat) : Pool n where
  workQueue := []
  terminateThreads := false
  numThreadsRunning := 0
  pc _ := .unborn
  owner := .constructing
  dispatched := 0
  invoked := []
  completed := []

def setPc (s : Pool n) (w : Fin n) (x : Pc) : Pool n := { s with pc := Function.update s.pc w x }

def signal (s : Pool n) (woken : List (Fin n)) : Pool n :=
  { s with pc := fun w => if s.pc w = .waiting ∧ w ∈ woken then .signaled else s.pc w }

def broadcast (s : Pool n) : Pool n := s.signal (List.finRange n)

def checkRunning (s : Pool n) : Pool n :=
  if s.numThreadsRunning ≠ n then { s with owner := .starting } else { s with owner := .ready }

def outerLoop (s : Pool n) (w : Fin n) : Pool n :=
  if s.terminateThreads = false then s.setPc w .waiting
  else { s.setPc w .exited with numThreadsRunning := s.numThreadsRunning - 1 }

def innerLoop (s : Pool n) (w : Fin n) : Pool n :=
  match s.workQueue, s.terminateThreads with
  | nextTask :: rest, false => { s.setPc w (.picked nextTask) with workQueue := rest }
  | _, _ => s.outerLoop w

def threadLoop (s : Pool n) (w : Fin n) : Pool n :=
  outerLoop { s with numThreadsRunning := s.numThreadsRunning + 1 } w

/-- The head of the destructor's join loop, and what follows the loop. -/
def joinLoop (s : Pool n) (numThreads i : Nat) : Pool n :=
  if i < numThreads then { s.broadcast with owner := .joining numThreads i }
  else if s.numThreadsRunning = 0 then { s with owner := .draining }
  else { s with owner := .failed }

/-- One atomic section, or the call or the return of a task function. The
action says which thread moves and which waiters a signal wakes: at least
one, if there is one. -/
def step (s : Pool n) : Action n → Option (Pool n)
  | .construct =>
      if s.owner = .constructing then some (checkRunning { s with pc := fun _ => .born }) else none
  | .poll => if s.owner = .starting then some s.checkRunning else none
  | .work w =>
      match s.pc w with
      | .born => some (s.threadLoop w)
      | .picked t => some { s.setPc w (.running t) with invoked := s.invoked ++ [(.worker w, t)] }
      | .running t => some { s.setPc w .returned with completed := s.completed ++ [(.worker w, t)] }
      | .signaled | .returned => some (s.innerLoop w)
      | .unborn | .waiting | .exited => none
  | .wakeUp w => some (s.signal [w])
  | .dispatch woken =>
      if s.owner = .ready ∧ ((∃ w, s.pc w = .waiting) → ∃ w ∈ woken, s.pc w = .waiting) then
        if s.terminateThreads = false then
          some (signal { s with workQueue := s.workQueue ++ [s.dispatched], dispatched := s.dispatched + 1 }
            woken)
        else some { s with owner := .failed }
      else none
  | .destroy =>
      if s.owner = .ready then
        some (joinLoop { s with terminateThreads := true } s.numThreadsRunning 0)
      else none
  | .join =>
      match s.owner with
      | .joining numThreads i =>
          if ∃ w : Fin n, w.val = i ∧ s.pc w = .exited then some (s.joinLoop numThreads (i + 1)) else none
      | _ => none
  | .drain =>
      match s.owner, s.workQueue with
      | .draining, [] => some { s with owner := .destroyed }
      | .draining, nextTask :: rest => some { s with workQueue := rest, owner := .drainPicked nextTask }
      | .drainPicked t, _ =>
          some { s with invoked := s.invoked ++ [(.destructor, t)], owner := .drainRunning t }
      | .drainRunning t, _ =>
          some { s with completed := s.completed ++ [(.destructor, t)], owner := .draining }
      | _, _ => none

def Reachable (s : Pool n) : Prop := ∃ acts, exec step (init n) acts = some s

@[simp]
theorem signal_pc_eq_waiting {s : Pool n} {woken : List (Fin n)} {w : Fin n} :
    (s.signal woken).pc w = .waiting ↔ s.pc w = .waiting ∧ w ∉ woken := by
  simp only [signal]
  split
  · next h => simp [h.2]
  · next h => tauto

theorem signal_pc_of_ne {s : Pool n} {woken : List (Fin n)} {w : Fin n} {x : Pc}
    (hx : x ≠ .signaled) (h : (s.signal woken).pc w = x) : s.pc w = x := by
  simp only [signal] at h
  split at h
  · exact absurd h.symm hx
  · exact h

theorem signal_pc_of_ne_waiting {s : Pool n} {woken : List (Fin n)} {w : Fin n} {x : Pc}
    (hx : x ≠ .waiting) (h : s.pc w = x) : (s.signal woken).pc w = x := by
  simp [signal, h, hx]

end Pool

def Pc.counted : Pc → Nat
  | .unborn | .born | .exited => 0
  | .waiting | .signaled | .picked _ | .running _ | .returned => 1

def Pc.runs (t : Task) : Pc → Nat
  | .running t' => if t' = t then 1 else 0
  | _ => 0

def Pc.holds (t : Task) : Pc → Nat
  | .picked t' | .running t' => if t' = t then 1 else 0
  | _ => 0

def Pc.awake : Pc → Bool
  | .signaled | .picked _ | .running _ | .returned => true
  | _ => false

def Owner.runs (t : Task) : Owner → Nat
  | .drainRunning t' => if t' = t then 1 else 0
  | _ => 0

def Owner.holds (t : Task) : Owner → Nat
  | .drainPicked t' | .drainRunning t' => if t' = t then 1 else 0
  | _ => 0

def Owner.constructed : Owner → Bool
  | .constructing | .starting => false
  | _ => true

def Owner.terminating : Owner → Bool
  | .constructing | .starting | .ready => false
  | _ => true

def Owner.joined : Owner → Bool
  | .draining | .drainPicked _ | .drainRunning _ | .destroyed => true
  | _ => false

namespace Pool

variable {n : Nat}

/-- The places where a dispatched task can be. -/
def places (s : Pool n) (t : Task) : Nat :=
  (s.completed.map Prod.snd).count t + total (Pc.holds t) s.pc + s.workQueue.count t + s.owner.holds t

def issued (dispatched t : Nat) : Nat := if t < dispatched then 1 else 0

theorem issued_succ (dispatched t : Nat) :
    issued (dispatched + 1) t = issued dispatched t + if dispatched = t then 1 else 0 := by
  unfold issued
  split_ifs <;> omega

/-- Every dispatched task is in exactly one place, and a called task function
is either running or has returned. -/
structure Accounted (s : Pool n) : Prop where
  places : ∀ t, s.places t = issued s.dispatched t
  invoked : ∀ t, (s.invoked.map Prod.snd).count t =
    (s.completed.map Prod.snd).count t + total (Pc.runs t) s.pc + s.owner.runs t

/-- What ties the workers, the flags and the owner's progress together. -/
structure Consistent (s : Pool n) : Prop where
  running : s.numThreadsRunning = total Pc.counted s.pc
  terminate : s.terminateThreads = s.owner.terminating
  unborn : s.owner = .constructing → ∀ w, s.pc w = .unborn
  empty : s.owner.constructed = false → s.workQueue = []
  started : s.owner.constructed = true → ∀ w, s.pc w ≠ .unborn ∧ s.pc w ≠ .born
  alive : s.terminateThreads = false → ∀ w, s.pc w ≠ .exited
  awake : s.terminateThreads = true → ∀ w, s.pc w ≠ .waiting
  served : 0 < n → s.terminateThreads = false → s.workQueue ≠ [] → ∃ w, s.pc w ≠ .waiting
  joining : ∀ m i, s.owner = .joining m i → m = n ∧ ∀ w : Fin n, w.val < i → s.pc w = .exited
  joined : s.owner.joined = true → ∀ w, s.pc w = .exited
  drained : s.owner = .destroyed → s.workQueue = []
  unfailed : s.owner ≠ .failed

theorem counted_le_one (x : Pc) : x.counted ≤ 1 := by
  cases x <;> simp [Pc.counted]

theorem ne_of_counted {x : Pc} (h : x.counted = 1) : x ≠ .unborn ∧ x ≠ .exited := by
  cases x <;> simp_all [Pc.counted]

theorem total_signal {s : Pool n} {f : Pc → Nat} (hf : f .signaled = f .waiting)
    (woken : List (Fin n)) : total f (s.signal woken).pc = total f s.pc :=
  total_congr fun w => by
    simp only [signal]
    split
    · next h => rw [hf, h.1]
    · rfl

theorem init_accounted : (init n).Accounted where
  places t := by
    have hpc : total (Pc.holds t) (init n).pc = 0 := total_eq_zero fun _ => rfl
    have hzero : issued 0 t = 0 := if_neg (Nat.not_lt_zero t)
    rw [places, hpc]
    simp [hzero, init, Owner.holds]
  invoked t := by
    have hpc : total (Pc.runs t) (init n).pc = 0 := total_eq_zero fun _ => rfl
    rw [hpc]
    simp [init, Owner.runs]

theorem init_consistent : (init n).Consistent where
  running := (total_eq_zero fun _ => rfl).symm
  terminate := rfl
  unborn _ _ := rfl
  empty _ := rfl
  started h := by simp [init, Owner.constructed] at h
  alive _ _ := by simp [init]
  awake h := by simp [init] at h
  served _ _ h := by simp [init] at h
  joining m i h := by simp [init] at h
  joined h := by simp [init, Owner.joined] at h
  drained h := by simp [init] at h
  unfailed := by simp [init]

theorem Consistent.move {s s' : Pool n} (h : s.Consistent) {w : Fin n} {x : Pc}
    (hpc : s'.pc = Function.update s.pc w x) (howner : s'.owner = s.owner)
    (hterm : s'.terminateThreads = s.terminateThreads) (hqueue : s.workQueue = [] → s'.workQueue = [])
    (hcount : s'.numThreadsRunning + (s.pc w).counted = s.numThreadsRunning + x.counted)
    (hfrom : s.pc w ≠ .unborn ∧ s.pc w ≠ .exited) (hborn : x ≠ .unborn ∧ x ≠ .born)
    (hexit : x = .exited → s.terminateThreads = true)
    (hwait : x = .waiting → s.terminateThreads = false ∧ s.workQueue = []) : s'.Consistent where
  running := by
    have hsum := total_update Pc.counted s.pc w x
    rw [hpc]
    have hrun := h.running
    omega
  terminate := by rw [hterm, howner, h.terminate]
  unborn hc := absurd (h.unborn (howner ▸ hc) w) hfrom.1
  empty hc := hqueue (h.empty (howner ▸ hc))
  started hc v := by
    rw [hpc]
    by_cases hv : v = w
    · simpa [hv] using hborn
    · simpa [hv] using h.started (howner ▸ hc) v
  alive ht v := by
    rw [hterm] at ht
    rw [hpc]
    by_cases hv : v = w
    · subst hv
      rw [Function.update_self]
      intro hx
      simp [hexit hx] at ht
    · simpa [hv] using h.alive ht v
  awake ht v := by
    rw [hterm] at ht
    rw [hpc]
    by_cases hv : v = w
    · subst hv
      rw [Function.update_self]
      intro hx
      simp [(hwait hx).1] at ht
    · simpa [hv] using h.awake ht v
  served _ _ hne := by
    refine ⟨w, ?_⟩
    rw [hpc, Function.update_self]
    exact fun hx => hne (hqueue (hwait hx).2)
  joining m i hj := by
    obtain ⟨hm, hex⟩ := h.joining m i (howner ▸ hj)
    refine ⟨hm, fun v hv => ?_⟩
    have hne : v ≠ w := fun he => hfrom.2 (he ▸ hex v hv)
    rw [hpc, Function.update_of_ne hne, hex v hv]
  joined hj := absurd (h.joined (howner ▸ hj) w) hfrom.2
  drained hd := hqueue (h.drained (howner ▸ hd))
  unfailed := howner ▸ h.unfailed

theorem Consistent.signal {s : Pool n} (h : s.Consistent) (woken : List (Fin n)) :
    (s.signal woken).Consistent where
  running := by rw [total_signal rfl]; exact h.running
  terminate := h.terminate
  unborn hc w := signal_pc_of_ne_waiting (by simp) (h.unborn hc w)
  empty := h.empty
  started hc w := ⟨fun hw => (h.started hc w).1 (signal_pc_of_ne (by simp) hw),
    fun hw => (h.started hc w).2 (signal_pc_of_ne (by simp) hw)⟩
  alive ht w hw := h.alive ht w (signal_pc_of_ne (by simp) hw)
  awake ht w hw := h.awake ht w (signal_pc_eq_waiting.mp hw).1
  served hn ht hq := by
    obtain ⟨w, hw⟩ := h.served hn ht hq
    exact ⟨w, fun hs => hw (signal_pc_eq_waiting.mp hs).1⟩
  joining m i hj := by
    obtain ⟨hm, hex⟩ := h.joining m i hj
    exact ⟨hm, fun w hw => signal_pc_of_ne_waiting (by simp) (hex w hw)⟩
  joined hj w := signal_pc_of_ne_waiting (by simp) (h.joined hj w)
  drained := h.drained
  unfailed := h.unfailed

theorem outerLoop_consistent {s : Pool n} {w : Fin n} (h : s.Consistent)
    (hw : (s.pc w).counted = 1) (hq : s.terminateThreads = false → s.workQueue = []) :
    (s.outerLoop w).Consistent := by
  have hzero : Pc.exited.counted = 0 := rfl
  have hfrom := ne_of_counted hw
  unfold outerLoop
  split
  · next ht =>
    exact h.move (x := .waiting) rfl rfl rfl id (by rw [hw]; rfl) hfrom (by simp) (by simp)
      fun _ => ⟨ht, hq ht⟩
  · next ht =>
    have hsum := total_update Pc.counted s.pc w .exited
    have hrun := h.running
    refine h.move (x := .exited) rfl rfl rfl id ?_ hfrom (by simp) (fun _ => by simpa using ht) (by simp)
    change s.numThreadsRunning - 1 + _ = _
    omega

theorem innerLoop_consistent {s : Pool n} {w : Fin n} (h : s.Consistent)
    (hw : (s.pc w).counted = 1) : (s.innerLoop w).Consistent := by
  have hfrom := ne_of_counted hw
  unfold innerLoop
  split
  · next t rest hq ht =>
    exact h.move (x := .picked t) rfl rfl rfl (by simp [hq]) (by rw [hw]; rfl) hfrom (by simp) (by simp)
      (by simp)
  · next hnot =>
    refine outerLoop_consistent h hw fun ht => ?_
    cases hq : s.workQueue with
    | nil => rfl
    | cons t rest => exact absurd ht (hnot t rest hq)

theorem threadLoop_consistent {s : Pool n} {w : Fin n} (h : s.Consistent) (hw : s.pc w = .born) :
    (s.threadLoop w).Consistent := by
  have hc : s.owner.constructed = false := by
    by_contra hc
    exact (h.started (by simpa using hc) w).2 hw
  have ht : s.terminateThreads = false := by
    rw [h.terminate]
    cases ho : s.owner <;> simp_all [Owner.constructed, Owner.terminating]
  simp only [threadLoop, outerLoop, ht, if_true]
  exact h.move (x := .waiting) rfl rfl ht.symm id (by rw [hw]; rfl) (by simp [hw]) (by simp) (by simp)
    fun _ => ⟨ht, h.empty hc⟩

theorem work_consistent {s s' : Pool n} {w : Fin n} (h : s.Consistent)
    (hstep : s.step (.work w) = some s') : s'.Consistent := by
  simp only [step] at hstep
  cases hw : s.pc w with
  | unborn | waiting | exited => simp [hw] at hstep
  | born =>
      obtain rfl : s.threadLoop w = s' := by simpa [hw] using hstep
      exact threadLoop_consistent h hw
  | signaled | returned =>
      obtain rfl : s.innerLoop w = s' := by simpa [hw] using hstep
      exact innerLoop_consistent h (by rw [hw]; rfl)
  | picked t =>
      simp only [hw, Option.some.injEq] at hstep
      subst hstep
      exact h.move (x := .running t) rfl rfl rfl id (by rw [hw]; rfl) (by simp [hw]) (by simp) (by simp)
        (by simp)
  | running t =>
      simp only [hw, Option.some.injEq] at hstep
      subst hstep
      exact h.move (x := .returned) rfl rfl rfl id (by rw [hw]; rfl) (by simp [hw]) (by simp) (by simp)
        (by simp)

theorem checkRunning_consistent {s : Pool n} (h : Consistent { s with owner := .starting }) :
    s.checkRunning.Consistent := by
  unfold checkRunning
  split
  · exact h
  · next hn =>
    have hall := (total_eq_card counted_le_one).mp (h.running.symm.trans (not_not.mp hn))
    exact { h with
      terminate := h.terminate
      unborn := by simp
      empty := by simp [Owner.constructed]
      started := fun _ w => ⟨(ne_of_counted (hall w)).1, fun hw => by
        have hborn := hall w
        rw [hw] at hborn
        cases hborn⟩
      joining := by simp
      joined := by simp [Owner.joined]
      drained := by simp
      unfailed := by simp }

theorem construct_consistent {s : Pool n} (h : s.Consistent) (ho : s.owner = .constructing) :
    (checkRunning { s with pc := fun _ => .born }).Consistent := by
  have hq := h.empty (by simp [ho, Owner.constructed])
  have hrun := h.running
  rw [total_eq_zero fun w => by rw [h.unborn ho w]; rfl] at hrun
  exact checkRunning_consistent {
    running := hrun.trans (total_eq_zero fun _ => rfl).symm
    terminate := by rw [h.terminate, ho]; rfl
    unborn := by simp
    empty := fun _ => hq
    started := by simp [Owner.constructed]
    alive := by simp
    awake := by simp
    served := fun _ _ hne => absurd hq hne
    joining := by simp
    joined := by simp [Owner.joined]
    drained := by simp
    unfailed := by simp }

/-- Once terminate_threads_ is set, a broadcast leaves no worker asleep, and
the join loop ends with all of them dead. -/
theorem joinLoop_consistent {s : Pool n} {m i : Nat} (hm : m = n)
    (hrun : s.numThreadsRunning = total Pc.counted s.pc) (ht : s.terminateThreads = true)
    (hborn : ∀ w, s.pc w ≠ .unborn ∧ s.pc w ≠ .born)
    (hall : ∀ w : Fin n, w.val < i → s.pc w = .exited) : (s.joinLoop m i).Consistent := by
  subst hm
  unfold joinLoop
  split
  · exact {
      running := by rw [broadcast, total_signal rfl]; exact hrun
      terminate := ht
      unborn := by simp
      empty := by simp [Owner.constructed]
      started := fun _ w => ⟨fun hw => (hborn w).1 (signal_pc_of_ne (by simp) hw),
        fun hw => (hborn w).2 (signal_pc_of_ne (by simp) hw)⟩
      alive := fun hf => by simp [broadcast, signal, ht] at hf
      awake := fun _ w hw => (signal_pc_eq_waiting.mp hw).2 (List.mem_finRange w)
      served := fun _ hf => by simp [broadcast, signal, ht] at hf
      joining := by
        rintro k j hj
        obtain ⟨rfl, rfl⟩ : m = k ∧ i = j := by simpa using hj
        exact ⟨rfl, fun w hw => signal_pc_of_ne_waiting (by simp) (hall w hw)⟩
      joined := by simp [Owner.joined]
      drained := by simp
      unfailed := by simp }
  · next hi =>
    have hdead (w : Fin m) : s.pc w = .exited := hall w (by omega)
    have hzero : s.numThreadsRunning = 0 := by
      rw [hrun]
      exact total_eq_zero fun w => by rw [hdead w]; rfl
    rw [if_pos hzero]
    exact {
      running := hrun
      terminate := ht
      unborn := by simp
      empty := by simp [Owner.constructed]
      started := fun _ => hborn
      alive := fun hf => by simp [ht] at hf
      awake := fun _ w => by simp [hdead w]
      served := fun _ hf => by simp [ht] at hf
      joining := by simp
      joined := fun _ => hdead
      drained := by simp
      unfailed := by simp }

theorem destroy_consistent {s : Pool n} (h : s.Consistent) (ho : s.owner = .ready) :
    (joinLoop { s with terminateThreads := true } s.numThreadsRunning 0).Consistent := by
  have hborn := h.started (by simp [ho, Owner.constructed])
  have halive := h.alive (by rw [h.terminate, ho]; rfl)
  have hn : s.numThreadsRunning = n := by
    rw [h.running, total_eq_card counted_le_one]
    intro w
    have hw := hborn w
    have hx := halive w
    cases hpc : s.pc w <;> simp_all [Pc.counted]
  exact joinLoop_consistent (s := { s with terminateThreads := true }) hn h.running rfl hborn (by simp)

theorem join_consistent {s s' : Pool n} (h : s.Consistent) (hstep : s.step .join = some s') :
    s'.Consistent := by
  simp only [step] at hstep
  split at hstep
  · next m i ho =>
    obtain ⟨rfl, hall⟩ := h.joining m i ho
    split at hstep
    · next hex =>
      obtain rfl := Option.some.inj hstep
      obtain ⟨w, rfl, hw⟩ := hex
      refine joinLoop_consistent rfl h.running (by rw [h.terminate, ho]; rfl)
        (h.started (by simp [ho, Owner.constructed])) fun v hv => ?_
      rcases Nat.lt_succ_iff_lt_or_eq.mp hv with hlt | heq
      · exact hall v hlt
      · rw [Fin.ext heq, hw]
    · cases hstep
  · cases hstep

/-- A signal wakes one of the waiting workers, so the new task is not left
with sleepers only. -/
theorem dispatch_consistent {s s' : Pool n} {woken : List (Fin n)} (h : s.Consistent)
    (hstep : s.step (.dispatch woken) = some s') : s'.Consistent := by
  simp only [step] at hstep
  split at hstep
  · next hguard =>
    obtain ⟨ho, hwake⟩ := hguard
    have ht : s.terminateThreads = false := by rw [h.terminate, ho]; rfl
    rw [if_pos ht] at hstep
    obtain rfl := Option.some.inj hstep
    refine { h.signal woken with
      empty := by simp [signal, ho, Owner.constructed]
      served := fun hn _ _ => ?_
      drained := by simp [signal, ho] }
    by_cases hsleep : ∃ w, s.pc w = .waiting
    · obtain ⟨w, hw, _⟩ := hwake hsleep
      exact ⟨w, fun hs => (signal_pc_eq_waiting.mp hs).2 hw⟩
    · exact ⟨⟨0, hn⟩, fun hs => hsleep ⟨_, (signal_pc_eq_waiting.mp hs).1⟩⟩
  · cases hstep

theorem Consistent.drainTo {s s' : Pool n} (h : s.Consistent) (hfrom : s.owner.joined = true)
    (hto : s'.owner.joined = true) (hrun : s'.numThreadsRunning = s.numThreadsRunning)
    (hterm : s'.terminateThreads = s.terminateThreads) (hpc : s'.pc = s.pc)
    (hempty : s'.owner = .destroyed → s'.workQueue = []) : s'.Consistent := by
  have ht : s.terminateThreads = true := by
    rw [h.terminate]
    cases ho : s.owner <;> simp_all [Owner.joined, Owner.terminating]
  have hdead := h.joined hfrom
  exact {
    running := by rw [hrun, hpc, h.running]
    terminate := by
      rw [hterm, ht]
      cases ho : s'.owner <;> simp_all [Owner.joined, Owner.terminating]
    unborn := fun ho => by simp [ho, Owner.joined] at hto
    empty := fun ho => by cases hs : s'.owner <;> simp_all [Owner.joined, Owner.constructed]
    started := fun _ w => by simp [hpc, hdead w]
    alive := fun hf => by simp [hterm, ht] at hf
    awake := fun _ w => by simp [hpc, hdead w]
    served := fun _ hf => by simp [hterm, ht] at hf
    joining := fun m i ho => by simp [ho, Owner.joined] at hto
    joined := fun _ w => by rw [hpc, hdead w]
    drained := hempty
    unfailed := fun ho => by simp [ho, Owner.joined] at hto }

theorem drain_consistent {s s' : Pool n} (h : s.Consistent) (hstep : s.step .drain = some s') :
    s'.Consistent := by
  simp only [step] at hstep
  split at hstep
  · next ho hq =>
    obtain rfl := Option.some.inj hstep
    exact h.drainTo (by simp [ho, Owner.joined]) rfl rfl rfl rfl fun _ => hq
  · next ho _ =>
    obtain rfl := Option.some.inj hstep
    exact h.drainTo (by simp [ho, Owner.joined]) rfl rfl rfl rfl (by simp)
  · next ho =>
    obtain rfl := Option.some.inj hstep
    exact h.drainTo (by simp [ho, Owner.joined]) rfl rfl rfl rfl (by simp)
  · next ho =>
    obtain rfl := Option.some.inj hstep
    exact h.drainTo (by simp [ho, Owner.joined]) rfl rfl rfl rfl (by simp)
  · cases hstep

theorem step_consistent (s : Pool n) (a : Action n) (s' : Pool n) (h : s.Consistent)
    (hstep : s.step a = some s') : s'.Consistent := by
  cases a with
  | construct =>
      simp only [step, Option.ite_none_right_eq_some, Option.some.injEq] at hstep
      obtain ⟨ho, rfl⟩ := hstep
      exact construct_consistent h ho
  | poll =>
      simp only [step, Option.ite_none_right_eq_some, Option.some.injEq] at hstep
      obtain ⟨ho, rfl⟩ := hstep
      exact checkRunning_consistent (by rw [← ho]; exact h)
  | work w => exact work_consistent h hstep
  | wakeUp w =>
      obtain rfl := Option.some.inj hstep
      exact h.signal [w]
  | dispatch woken => exact dispatch_consistent h hstep
  | destroy =>
      simp only [step, Option.ite_none_right_eq_some, Option.some.injEq] at hstep
      obtain ⟨ho, rfl⟩ := hstep
      exact destroy_consistent h ho
  | join => exact join_consistent h hstep
  | drain => exact drain_consistent h hstep

theorem Accounted.move {s s' : Pool n} (h : s.Accounted) {w : Fin n} {x : Pc}
    (hpc : s'.pc = Function.update s.pc w x) (howner : s'.owner = s.owner)
    (hqueue : s'.workQueue = s.workQueue) (hdisp : s'.dispatched = s.dispatched)
    (hinv : s'.invoked = s.invoked) (hcomp : s'.completed = s.completed)
    (hholds : ∀ t, (s.pc w).holds t = x.holds t) (hruns : ∀ t, (s.pc w).runs t = x.runs t) :
    s'.Accounted where
  places t := by
    have hsum := total_update (Pc.holds t) s.pc w x
    have hx := hholds t
    rw [hdisp, ← h.places t, Pool.places, Pool.places, hpc, howner, hqueue, hcomp]
    omega
  invoked t := by
    have hsum := total_update (Pc.runs t) s.pc w x
    have hi := h.invoked t
    have hx := hruns t
    rw [hpc, howner, hinv, hcomp]
    omega

theorem Accounted.signal {s : Pool n} (h : s.Accounted) (woken : List (Fin n)) :
    (s.signal woken).Accounted where
  places t := by
    rw [Pool.places, total_signal rfl]
    exact h.places t
  invoked t := by
    rw [total_signal rfl]
    exact h.invoked t

theorem Accounted.withOwner {s : Pool n} (h : s.Accounted) (o : Owner) (b : Bool)
    (hfrom : ∀ t, s.owner.holds t = 0 ∧ s.owner.runs t = 0) (hto : ∀ t, o.holds t = 0 ∧ o.runs t = 0) :
    Accounted { s with owner := o, terminateThreads := b } where
  places t := by
    have hf := hfrom t
    have ho := hto t
    refine Eq.trans ?_ (h.places t)
    simp only [Pool.places]
    omega
  invoked t := by
    have hi := h.invoked t
    have hf := hfrom t
    have ho := hto t
    simp only
    omega

theorem outerLoop_accounted {s : Pool n} {w : Fin n} (h : s.Accounted)
    (hholds : ∀ t, (s.pc w).holds t = 0) (hruns : ∀ t, (s.pc w).runs t = 0) :
    (s.outerLoop w).Accounted := by
  unfold outerLoop
  split
  · exact h.move (x := .waiting) rfl rfl rfl rfl rfl rfl hholds hruns
  · exact h.move (x := .exited) rfl rfl rfl rfl rfl rfl hholds hruns

theorem innerLoop_accounted {s : Pool n} {w : Fin n} (h : s.Accounted)
    (hholds : ∀ t, (s.pc w).holds t = 0) (hruns : ∀ t, (s.pc w).runs t = 0) :
    (s.innerLoop w).Accounted := by
  unfold innerLoop
  split
  · next u rest hq _ =>
    refine ⟨fun t => ?_, fun t => ?_⟩
    · have hsum := total_update (Pc.holds t) s.pc w (.picked u)
      have hx := hholds t
      have hu : (Pc.picked u).holds t = if u = t then 1 else 0 := rfl
      refine Eq.trans ?_ (h.places t)
      simp only [Pool.places, setPc, hq, List.count_cons, beq_iff_eq]
      omega
    · have hsum := total_update (Pc.runs t) s.pc w (.picked u)
      have hi := h.invoked t
      have hx := hruns t
      have hu : (Pc.picked u).runs t = 0 := rfl
      simp only [setPc]
      omega
  · exact outerLoop_accounted h hholds hruns

theorem count_log (log : List (Executor n × Task)) (e : Executor n) (u t : Task) :
    ((log ++ [(e, u)]).map Prod.snd).count t = (log.map Prod.snd).count t + if u = t then 1 else 0 := by
  simp [List.count_append, List.count_singleton]

theorem work_accounted {s s' : Pool n} {w : Fin n} (h : s.Accounted)
    (hstep : s.step (.work w) = some s') : s'.Accounted := by
  simp only [step] at hstep
  cases hw : s.pc w with
  | unborn | waiting | exited => simp [hw] at hstep
  | born =>
      obtain rfl : s.threadLoop w = s' := by simpa [hw] using hstep
      have hcount : Accounted { s with numThreadsRunning := s.numThreadsRunning + 1 } :=
        ⟨h.places, h.invoked⟩
      exact outerLoop_accounted hcount (fun t => by simp only [hw]; rfl) fun t => by simp only [hw]; rfl
  | signaled | returned =>
      obtain rfl : s.innerLoop w = s' := by simpa [hw] using hstep
      exact innerLoop_accounted h (fun t => by rw [hw]; rfl) fun t => by rw [hw]; rfl
  | picked u =>
      simp only [hw, Option.some.injEq] at hstep
      subst hstep
      refine ⟨fun t => ?_, fun t => ?_⟩
      · have hsum := total_update (Pc.holds t) s.pc w (.running u)
        have hx : (s.pc w).holds t = (Pc.running u).holds t := by rw [hw]; rfl
        refine Eq.trans ?_ (h.places t)
        simp only [Pool.places, setPc]
        omega
      · have hsum := total_update (Pc.runs t) s.pc w (.running u)
        have hi := h.invoked t
        have hx : (s.pc w).runs t = 0 := by rw [hw]; rfl
        have hu : (Pc.running u).runs t = if u = t then 1 else 0 := rfl
        simp only [setPc, count_log]
        omega
  | running u =>
      simp only [hw, Option.some.injEq] at hstep
      subst hstep
      refine ⟨fun t => ?_, fun t => ?_⟩
      · have hsum := total_update (Pc.holds t) s.pc w .returned
        have hx : (s.pc w).holds t = if u = t then 1 else 0 := by rw [hw]; rfl
        have hr : Pc.returned.holds t = 0 := rfl
        refine Eq.trans ?_ (h.places t)
        simp only [Pool.places, setPc, count_log]
        omega
      · have hsum := total_update (Pc.runs t) s.pc w .returned
        have hi := h.invoked t
        have hx : (s.pc w).runs t = if u = t then 1 else 0 := by rw [hw]; rfl
        have hr : Pc.returned.runs t = 0 := rfl
        simp only [setPc, count_log]
        omega

theorem dispatch_accounted {s s' : Pool n} {woken : List (Fin n)} (h : s.Accounted)
    (hstep : s.step (.dispatch woken) = some s') : s'.Accounted := by
  simp only [step] at hstep
  split at hstep
  · next hguard =>
    split at hstep
    · obtain rfl := Option.some.inj hstep
      refine Accounted.signal (s := { s with
        workQueue := s.workQueue ++ [s.dispatched], dispatched := s.dispatched + 1 })
        ⟨fun t => ?_, h.invoked⟩ woken
      rw [issued_succ, ← h.places t]
      simp only [Pool.places, List.count_append, List.count_singleton, beq_iff_eq]
      omega
    · obtain rfl := Option.some.inj hstep
      exact h.withOwner .failed s.terminateThreads (by simp [hguard.1, Owner.holds, Owner.runs])
        (by simp [Owner.holds, Owner.runs])
  · cases hstep

theorem checkRunning_accounted {s : Pool n} (h : Accounted { s with owner := .starting }) :
    s.checkRunning.Accounted := by
  unfold checkRunning
  split
  · exact h
  · exact h.withOwner .ready s.terminateThreads (by simp [Owner.holds, Owner.runs])
      (by simp [Owner.holds, Owner.runs])

theorem construct_accounted {s : Pool n} (hc : s.Consistent) (h : s.Accounted)
    (ho : s.owner = .constructing) : (checkRunning { s with pc := fun _ => .born }).Accounted := by
  have hborn (t : Task) : total (Pc.holds t) (fun _ : Fin n => Pc.born) = total (Pc.holds t) s.pc :=
    total_congr fun w => by rw [hc.unborn ho w]; rfl
  have hruns (t : Task) : total (Pc.runs t) (fun _ : Fin n => Pc.born) = total (Pc.runs t) s.pc :=
    total_congr fun w => by rw [hc.unborn ho w]; rfl
  refine checkRunning_accounted ⟨fun t => Eq.trans ?_ (h.places t), fun t => Eq.trans (h.invoked t) ?_⟩
  · simp only [Pool.places, ho, hborn, Owner.holds]
  · simp only [ho, hruns, Owner.runs]

theorem joinLoop_accounted {s : Pool n} (h : s.Accounted) (b : Bool) (m i : Nat)
    (ho : ∀ t, s.owner.holds t = 0 ∧ s.owner.runs t = 0) :
    (joinLoop { s with terminateThreads := b } m i).Accounted := by
  unfold joinLoop
  split
  · exact (h.withOwner (.joining m i) b ho (by simp [Owner.holds, Owner.runs])).signal _
  · split
    · exact h.withOwner .draining b ho (by simp [Owner.holds, Owner.runs])
    · exact h.withOwner .failed b ho (by simp [Owner.holds, Owner.runs])

theorem drain_accounted {s s' : Pool n} (h : s.Accounted) (hstep : s.step .drain = some s') :
    s'.Accounted := by
  simp only [step] at hstep
  split at hstep
  · next ho hq =>
    obtain rfl := Option.some.inj hstep
    exact h.withOwner .destroyed s.terminateThreads (by simp [ho, Owner.holds, Owner.runs])
      (by simp [Owner.holds, Owner.runs])
  · next u rest ho hq =>
    obtain rfl := Option.some.inj hstep
    refine ⟨fun t => Eq.trans ?_ (h.places t), fun t => Eq.trans (h.invoked t) (by simp [ho, Owner.runs])⟩
    simp only [Pool.places, ho, hq, Owner.holds, List.count_cons, beq_iff_eq]
    omega
  · next u ho =>
    obtain rfl := Option.some.inj hstep
    refine ⟨fun t => Eq.trans ?_ (h.places t), fun t => ?_⟩
    · simp only [Pool.places, ho, Owner.holds]
    · have hi := h.invoked t
      simp only [ho, Owner.runs] at hi
      simp only [count_log, Owner.runs]
      omega
  · next u ho =>
    obtain rfl := Option.some.inj hstep
    refine ⟨fun t => Eq.trans ?_ (h.places t), fun t => Eq.trans (h.invoked t) ?_⟩
    · simp only [Pool.places, ho, Owner.holds, count_log]
      omega
    · simp only [ho, Owner.runs, count_log]
      omega
  · cases hstep

theorem step_accounted (s : Pool n) (a : Action n) (s' : Pool n) (h : s.Consistent ∧ s.Accounted)
    (hstep : s.step a = some s') : s'.Accounted := by
  obtain ⟨hc, h⟩ := h
  cases a with
  | construct =>
      simp only [step, Option.ite_none_right_eq_some, Option.some.injEq] at hstep
      obtain ⟨ho, rfl⟩ := hstep
      exact construct_accounted hc h ho
  | poll =>
      simp only [step, Option.ite_none_right_eq_some, Option.some.injEq] at hstep
      obtain ⟨ho, rfl⟩ := hstep
      exact checkRunning_accounted (by rw [← ho]; exact h)
  | work w => exact work_accounted h hstep
  | wakeUp w =>
      obtain rfl := Option.some.inj hstep
      exact h.signal [w]
  | dispatch woken => exact dispatch_accounted h hstep
  | destroy =>
      simp only [step, Option.ite_none_right_eq_some, Option.some.injEq] at hstep
      obtain ⟨ho, rfl⟩ := hstep
      exact joinLoop_accounted h true _ 0 (by simp [ho, Owner.holds, Owner.runs])
  | join =>
      simp only [step] at hstep
      split at hstep
      · next m i ho =>
        simp only [Option.ite_none_right_eq_some, Option.some.injEq] at hstep
        obtain ⟨_, rfl⟩ := hstep
        exact joinLoop_accounted h s.terminateThreads m (i + 1) (by simp [ho, Owner.holds, Owner.runs])
      · cases hstep
  | drain => exact drain_accounted h hstep

theorem reachable_invariant {s : Pool n} (h : Reachable s) : s.Consistent ∧ s.Accounted := by
  obtain ⟨acts, hexec⟩ := h
  exact exec_invariant (I := fun s : Pool n => s.Consistent ∧ s.Accounted)
    (fun s a s' hI hstep => ⟨step_consistent s a s' hI.1 hstep, step_accounted s a s' hI hstep⟩)
    acts ⟨init_consistent, init_accounted⟩ hexec

theorem runs_le_holds (t : Task) (x : Pc) : x.runs t ≤ x.holds t := by
  cases x <;> simp [Pc.runs, Pc.holds]

theorem Owner.runs_le_holds (t : Task) (o : Owner) : o.runs t ≤ o.holds t := by
  cases o <;> simp [Owner.runs, Owner.holds]

theorem invoked_le_issued {s : Pool n} (h : s.Accounted) (t : Task) :
    (s.invoked.map Prod.snd).count t ≤ issued s.dispatched t := by
  have hp := h.places t
  have hi := h.invoked t
  have hw := total_mono (runs_le_holds t) s.pc
  have ho := Owner.runs_le_holds t s.owner
  unfold Pool.places at hp
  omega

theorem perm_range {log : List (Executor n × Task)} {d : Nat}
    (h : ∀ t, (log.map Prod.snd).count t = issued d t) : (log.map Prod.snd).Perm (List.range d) := by
  refine List.perm_iff_count.mpr fun t => ?_
  rw [h, issued, List.count_range]

/-- No task function is called twice, and once the pool has been destroyed
every task that was dispatched has been called and has returned exactly once,
in a worker or in the destructor's drain. -/
theorem every_task_once {s : Pool n} (h : Reachable s) :
    (s.invoked.map Prod.snd).Nodup ∧
    (s.owner = .destroyed →
      (s.invoked.map Prod.snd).Perm (List.range s.dispatched) ∧
      (s.completed.map Prod.snd).Perm (List.range s.dispatched)) := by
  obtain ⟨hc, ha⟩ := reachable_invariant h
  refine ⟨List.nodup_iff_count_le_one.mpr fun t => ?_, fun ho => ?_⟩
  · have hle := invoked_le_issued ha t
    unfold issued at hle
    split at hle <;> omega
  · have hdead := hc.joined (by rw [ho]; rfl)
    have hholds (t : Task) : total (Pc.holds t) s.pc = 0 := total_eq_zero fun w => by rw [hdead w]; rfl
    have hruns (t : Task) : total (Pc.runs t) s.pc = 0 := total_eq_zero fun w => by rw [hdead w]; rfl
    have hcompleted (t : Task) : (s.completed.map Prod.snd).count t = issued s.dispatched t := by
      rw [← ha.places t, Pool.places, hholds, hc.drained ho, ho]
      simp [Owner.holds]
    refine ⟨perm_range fun t => ?_, perm_range hcompleted⟩
    rw [ha.invoked t, hcompleted, hruns, ho]
    simp [Owner.runs]

def drainedRun : List (Action 2) :=
  [.construct, .work 0, .work 1, .poll, .dispatch [1], .work 1, .dispatch [0], .destroy, .work 1, .work 1,
    .work 1, .work 0, .join, .join, .drain, .drain, .drain, .drain]

theorem every_task_once_drained :
    ∃ s : Pool 2, exec step (init 2) drainedRun = some s ∧ s.owner = .destroyed ∧
      s.completed = [(.worker 1, 0), (.destructor, 1)] ∧ (s.invoked.map Prod.snd).Nodup ∧
      (s.completed.map Prod.snd).Perm (List.range s.dispatched) := by
  have howner : (exec step (init 2) drainedRun).map owner = some .destroyed := by decide
  have hlog : (exec step (init 2) drainedRun).map completed =
      some [(.worker 1, 0), (.destructor, 1)] := by decide
  obtain ⟨s, hs, howner⟩ := Option.map_eq_some_iff.mp howner
  simp only [hs, Option.map_some, Option.some.injEq] at hlog
  obtain ⟨hnodup, hdone⟩ := every_task_once ⟨drainedRun, hs⟩
  exact ⟨s, hs, howner, hlog, hnodup, (hdone howner).2⟩

/-- No lost wake-up: while there is work, some worker is not asleep, and after
the destructor's broadcast every worker that has not exited is awake. -/
theorem no_lost_wakeup {s : Pool n} (h : Reachable s) :
    (0 < n → s.owner.constructed = true → s.terminateThreads = false → s.workQueue ≠ [] →
      ∃ w, (s.pc w).awake = true) ∧
    (s.terminateThreads = true → ∀ w, s.pc w ≠ .exited → (s.pc w).awake = true) := by
  obtain ⟨hc, _⟩ := reachable_invariant h
  have hawake (w : Fin n) (hcon : s.owner.constructed = true) (hw : s.pc w ≠ .waiting)
      (hx : s.pc w ≠ .exited) : (s.pc w).awake = true := by
    have hborn := hc.started hcon w
    cases hpc : s.pc w <;> simp_all [Pc.awake]
  refine ⟨fun hn hcon ht hq => ?_, fun ht w hx => ?_⟩
  · obtain ⟨w, hw⟩ := hc.served hn ht hq
    exact ⟨w, hawake w hcon hw (hc.alive ht w)⟩
  · refine hawake w ?_ (hc.awake ht w) hx
    rw [hc.terminate] at ht
    cases ho : s.owner <;> simp_all [Owner.constructed, Owner.terminating]

theorem no_lost_wakeup_queued :
    ∃ s : Pool 1, exec step (init 1) [.construct, .work 0, .poll, .dispatch [0]] = some s ∧
      s.workQueue ≠ [] ∧ ∃ w, (s.pc w).awake = true := by
  have hfacts : (exec step (init 1) [.construct, .work 0, .poll, .dispatch [0]]).map
      (fun s => (s.workQueue, s.terminateThreads, s.owner)) = some ([0], false, .ready) := by decide
  obtain ⟨s, hs, hfacts⟩ := Option.map_eq_some_iff.mp hfacts
  simp only [Prod.mk.injEq] at hfacts
  obtain ⟨hq, ht, ho⟩ := hfacts
  have hne : s.workQueue ≠ [] := by simp [hq]
  exact ⟨s, hs, hne, (no_lost_wakeup ⟨_, hs⟩).1 (by decide) (by rw [ho]; rfl) ht hne⟩

end Pool

end SearchEngine.ThreadPool
