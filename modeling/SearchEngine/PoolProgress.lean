import SearchEngine.ThreadPool

/-! What is left to be done in a pool that nobody calls any more. -/

namespace SearchEngine.ThreadPool

open Transition

/-- The steps that a worker still takes with the task that it holds, before it
looks at the queue again. -/
def Pc.left : Pc → Nat
  | .unborn | .waiting | .exited => 0
  | .born | .signaled | .returned => 1
  | .running _ => 2
  | .picked _ => 3

def Owner.left : Owner → Nat
  | .joining numThreads i => numThreads - i + 1
  | .draining => 1
  | .drainRunning _ => 2
  | .drainPicked _ => 3
  | .constructing | .starting | .ready | .destroyed | .failed => 0

namespace Action

variable {n : Nat}

/-- The calls of the pool's user. -/
def isCall : Action n → Bool
  | .construct | .poll | .dispatch _ | .destroy => true
  | .work _ | .wakeUp _ | .join | .drain => false

def isWakeUp : Action n → Bool
  | .wakeUp _ => true
  | _ => false

/-- A step of the pool itself. The waking of a waiter is none. -/
def progress (a : Action n) : Nat := if a.isWakeUp then 0 else 1

def spurious (a : Action n) : Nat := if a.isWakeUp then 1 else 0

end Action

namespace Pool

variable {n : Nat}

def left (s : Pool n) : Nat := 3 * s.workQueue.length + total Pc.left s.pc + s.owner.left

/-- The join loop is not past its end. -/
def Joining (s : Pool n) : Prop := ∀ m i, s.owner = .joining m i → i < m

theorem joinLoop_joining (s : Pool n) (m i : Nat) : (s.joinLoop m i).Joining := by
  rw [joinLoop]
  split
  · next hi =>
    intro m' i' h
    obtain ⟨rfl, rfl⟩ := Owner.joining.inj h
    exact hi
  · split
    · exact fun m' i' h => nomatch h
    · exact fun m' i' h => nomatch h

theorem outerLoop_owner (s : Pool n) (w : Fin n) : (s.outerLoop w).owner = s.owner := by
  rw [outerLoop]
  split <;> rfl

theorem innerLoop_owner (s : Pool n) (w : Fin n) : (s.innerLoop w).owner = s.owner := by
  rw [innerLoop]
  split
  · rfl
  · exact outerLoop_owner s w

theorem work_owner {s s' : Pool n} {w : Fin n} (h : s.step (.work w) = some s') : s'.owner = s.owner := by
  simp only [step] at h
  split at h
  · obtain rfl := Option.some.inj h
    exact outerLoop_owner _ w
  · obtain rfl := Option.some.inj h
    rfl
  · obtain rfl := Option.some.inj h
    rfl
  · obtain rfl := Option.some.inj h
    exact innerLoop_owner s w
  · obtain rfl := Option.some.inj h
    exact innerLoop_owner s w
  · cases h
  · cases h
  · cases h

theorem Joining.of_owner {s s' : Pool n} (h : s.Joining) (howner : s'.owner = s.owner) : s'.Joining :=
  fun m i hj => h m i (howner ▸ hj)

theorem checkRunning_joining (s : Pool n) : s.checkRunning.Joining := by
  rw [checkRunning]
  split
  · intro m i h
    cases h
  · intro m i h
    cases h

theorem step_joining (s : Pool n) (a : Action n) (s' : Pool n) (h : s.Joining) (hstep : s.step a = some s') :
    s'.Joining := by
  cases a with
  | construct =>
      simp only [step, Option.ite_none_right_eq_some, Option.some.injEq] at hstep
      obtain ⟨_, rfl⟩ := hstep
      exact checkRunning_joining _
  | poll =>
      simp only [step, Option.ite_none_right_eq_some, Option.some.injEq] at hstep
      obtain ⟨_, rfl⟩ := hstep
      exact checkRunning_joining s
  | work w => exact h.of_owner (work_owner hstep)
  | wakeUp w =>
      obtain rfl := Option.some.inj hstep
      exact h
  | dispatch woken =>
      simp only [step] at hstep
      split at hstep
      · split at hstep
        · obtain rfl := Option.some.inj hstep
          exact h
        · obtain rfl := Option.some.inj hstep
          intro m i hj
          cases hj
      · cases hstep
  | destroy =>
      simp only [step, Option.ite_none_right_eq_some, Option.some.injEq] at hstep
      obtain ⟨_, rfl⟩ := hstep
      exact joinLoop_joining _ _ _
  | join =>
      simp only [step] at hstep
      split at hstep
      · split at hstep
        · obtain rfl := Option.some.inj hstep
          exact joinLoop_joining _ _ _
        · cases hstep
      · cases hstep
  | drain =>
      simp only [step] at hstep
      split at hstep
      · obtain rfl := Option.some.inj hstep
        intro m i hj
        cases hj
      · obtain rfl := Option.some.inj hstep
        intro m i hj
        cases hj
      · obtain rfl := Option.some.inj hstep
        intro m i hj
        cases hj
      · obtain rfl := Option.some.inj hstep
        intro m i hj
        cases hj
      · cases hstep

theorem reachable_joining {s : Pool n} (h : Reachable s) : s.Joining := by
  obtain ⟨acts, hexec⟩ := h
  have hinit : (init n).Joining := by
    intro m i hj
    cases hj
  exact exec_invariant step_joining acts hinit hexec

theorem outerLoop_left (s : Pool n) (w : Fin n) : (s.outerLoop w).left + (s.pc w).left = s.left := by
  have hwaiting := total_update Pc.left s.pc w .waiting
  have hexited := total_update Pc.left s.pc w .exited
  rw [show Pc.waiting.left = 0 from rfl] at hwaiting
  rw [show Pc.exited.left = 0 from rfl] at hexited
  rw [outerLoop]
  split
  · rw [left, left, setPc]
    dsimp only
    omega
  · rw [left, left, setPc]
    dsimp only
    omega

/-- A task that is picked up takes three steps. -/
theorem innerLoop_left {s : Pool n} {w : Fin n} (hw : (s.pc w).left = 1) :
    (s.innerLoop w).left + 1 = s.left := by
  rw [innerLoop]
  split
  · next t rest hqueue _ =>
    have hpicked := total_update Pc.left s.pc w (.picked t)
    rw [show (Pc.picked t).left = 3 from rfl] at hpicked
    rw [left, left, setPc, hqueue, List.length_cons]
    dsimp only
    omega
  · rw [← hw]
    exact outerLoop_left s w

theorem work_left {s s' : Pool n} {w : Fin n} (h : s.step (.work w) = some s') : s'.left + 1 ≤ s.left := by
  have hmove {x : Pc} (hx : x.left + 1 = (s.pc w).left) : (s.setPc w x).left + 1 = s.left := by
    have hsum := total_update Pc.left s.pc w x
    rw [left, left, setPc]
    dsimp only
    omega
  simp only [step] at h
  split at h
  · next hw =>
    obtain rfl := Option.some.inj h
    have hborn := outerLoop_left { s with numThreadsRunning := s.numThreadsRunning + 1 } w
    rw [show ({ s with numThreadsRunning := s.numThreadsRunning + 1 } : Pool n).pc w = .born from hw] at hborn
    exact Nat.le_of_eq hborn
  · next t hw =>
    obtain rfl := Option.some.inj h
    exact Nat.le_of_eq (hmove (x := .running t) (by rw [hw]; rfl))
  · next t hw =>
    obtain rfl := Option.some.inj h
    exact Nat.le_of_eq (hmove (x := .returned) (by rw [hw]; rfl))
  · next hw =>
    obtain rfl := Option.some.inj h
    exact Nat.le_of_eq (innerLoop_left (by rw [hw]; rfl))
  · next hw =>
    obtain rfl := Option.some.inj h
    exact Nat.le_of_eq (innerLoop_left (by rw [hw]; rfl))
  · cases h
  · cases h
  · cases h

theorem wakeUp_left (s : Pool n) (w : Fin n) : (s.signal [w]).left ≤ s.left + 1 := by
  by_cases hw : s.pc w = .waiting
  · have hpc : (s.signal [w]).pc = Function.update s.pc w .signaled := by
      funext v
      rw [signal]
      dsimp only
      by_cases hv : v = w
      · rw [hv, Function.update_self, if_pos ⟨hw, List.mem_singleton_self w⟩]
      · rw [Function.update_of_ne hv, if_neg fun h => hv (List.mem_singleton.mp h.2)]
    have hsum := total_update Pc.left s.pc w .signaled
    rw [hw, show Pc.signaled.left = 1 from rfl, show Pc.waiting.left = 0 from rfl] at hsum
    have hqueue : (s.signal [w]).workQueue = s.workQueue := rfl
    have howner : (s.signal [w]).owner = s.owner := rfl
    rw [left, left, hpc, hqueue, howner]
    omega
  · have hpc : (s.signal [w]).pc = s.pc := by
      funext v
      rw [signal]
      dsimp only
      rw [if_neg]
      rintro ⟨hv, hmem⟩
      exact hw (List.mem_singleton.mp hmem ▸ hv)
    have hqueue : (s.signal [w]).workQueue = s.workQueue := rfl
    have howner : (s.signal [w]).owner = s.owner := rfl
    rw [left, left, hpc, hqueue, howner]
    omega

/-- Past the first broadcast nobody sleeps, so the others wake nobody. -/
theorem join_left {s s' : Pool n} (hc : s.Consistent) (hj : s.Joining) (h : s.step .join = some s') :
    s'.left + 1 ≤ s.left := by
  have hconsistent := join_consistent hc h
  simp only [step] at h
  split at h
  · next m i howner =>
    have hi := hj m i howner
    have hterm : s.terminateThreads = true := by rw [hc.terminate, howner]; rfl
    split at h
    · obtain rfl := Option.some.inj h
      have hleft : s.left = 3 * s.workQueue.length + total Pc.left s.pc + (m - i + 1) := by rw [left, howner]; rfl
      have hbroadcast : total Pc.left s.broadcast.pc = total Pc.left s.pc := by
        apply total_congr
        intro w
        rw [broadcast, signal]
        dsimp only
        rw [if_neg fun hw => hc.awake hterm w hw.1]
      rw [joinLoop] at hconsistent ⊢
      split at hconsistent
      · next hnext =>
        rw [if_pos hnext, hleft, left]
        dsimp only [Owner.left]
        rw [hbroadcast]
        dsimp only [broadcast, signal]
        omega
      · next hlast =>
        rw [if_neg hlast]
        split at hconsistent
        · next hzero =>
          rw [if_pos hzero, hleft, left]
          dsimp only [Owner.left]
          omega
        · exact absurd rfl hconsistent.unfailed
    · cases h
  · cases h

theorem drain_left {s s' : Pool n} (h : s.step .drain = some s') : s'.left + 1 ≤ s.left := by
  simp only [step] at h
  split at h
  · next howner hqueue =>
    obtain rfl := Option.some.inj h
    rw [left, left, howner]
    dsimp only [Owner.left]
    omega
  · next howner hqueue =>
    obtain rfl := Option.some.inj h
    rw [left, left, howner, hqueue, List.length_cons]
    dsimp only [Owner.left]
    omega
  · next howner =>
    obtain rfl := Option.some.inj h
    rw [left, left, howner]
    dsimp only [Owner.left]
    omega
  · next howner =>
    obtain rfl := Option.some.inj h
    rw [left, left, howner]
    dsimp only [Owner.left]
    omega
  · cases h

/-- A state of a constructed pool. -/
structure Serving (s : Pool n) : Prop where
  consistent : s.Consistent
  accounted : s.Accounted
  joining : s.Joining
  constructed : s.owner.constructed = true

theorem step_serving (s : Pool n) (a : Action n) (s' : Pool n) (h : s.Serving) (ha : a.isCall = false)
    (hstep : s.step a = some s') : s'.Serving ∧ s'.left + a.progress ≤ s.left + a.spurious := by
  have hconstructed : s'.owner.constructed = true := by
    cases a with
    | work w => rw [work_owner hstep, h.constructed]
    | wakeUp w =>
        obtain rfl := Option.some.inj hstep
        exact h.constructed
    | join =>
        cases hcon : s'.owner.constructed with
        | true => rfl
        | false =>
            have hunfailed := (join_consistent h.consistent hstep).unfailed
            simp only [step] at hstep
            split at hstep
            · split at hstep
              · obtain rfl := Option.some.inj hstep
                rw [joinLoop] at hcon
                split at hcon
                · cases hcon
                · split at hcon <;> cases hcon
              · cases hstep
            · cases hstep
    | drain =>
        simp only [step] at hstep
        split at hstep
        · obtain rfl := Option.some.inj hstep
          rfl
        · obtain rfl := Option.some.inj hstep
          rfl
        · obtain rfl := Option.some.inj hstep
          rfl
        · obtain rfl := Option.some.inj hstep
          rfl
        · cases hstep
    | construct => cases ha
    | poll => cases ha
    | dispatch woken => cases ha
    | destroy => cases ha
  refine ⟨⟨step_consistent s a s' h.consistent hstep, step_accounted s a s' ⟨h.consistent, h.accounted⟩ hstep,
    step_joining s a s' h.joining hstep, hconstructed⟩, ?_⟩
  cases a with
  | work w => exact work_left hstep
  | wakeUp w =>
      obtain rfl := Option.some.inj hstep
      exact wakeUp_left s w
  | join => exact join_left h.consistent h.joining hstep
  | drain => exact drain_left hstep
  | construct => cases ha
  | poll => cases ha
  | dispatch woken => cases ha
  | destroy => cases ha

/-- No thread of the pool can move on its own. -/
def Quiet (s : Pool n) : Prop := ∀ a : Action n, a.isCall = false → a.isWakeUp = false → s.step a = none

theorem Quiet.pc {s : Pool n} (h : s.Quiet) (w : Fin n) :
    s.pc w = .unborn ∨ s.pc w = .waiting ∨ s.pc w = .exited := by
  have hstep := h (.work w) rfl rfl
  simp only [step] at hstep
  cases hw : s.pc w with
  | unborn => exact .inl rfl
  | waiting => exact .inr (.inl rfl)
  | exited => exact .inr (.inr rfl)
  | born => simp [hw] at hstep
  | signaled => simp [hw] at hstep
  | picked t => simp [hw] at hstep
  | running t => simp [hw] at hstep
  | returned => simp [hw] at hstep

/-- The destructor is never stuck. -/
theorem Serving.destroyed {s : Pool n} (h : s.Serving) (hquiet : s.Quiet) (hterm : s.terminateThreads = true) :
    s.owner = .destroyed := by
  have hexited (w : Fin n) : s.pc w = .exited := by
    rcases hquiet.pc w with hw | hw | hw
    · exact absurd hw (h.consistent.started h.constructed w).1
    · exact absurd hw (h.consistent.awake hterm w)
    · exact hw
  have hdrain := hquiet .drain rfl rfl
  have hjoin := hquiet .join rfl rfl
  have hterminating := h.consistent.terminate
  rw [hterm] at hterminating
  simp only [step] at hdrain hjoin
  cases howner : s.owner with
  | destroyed => rfl
  | joining m i =>
      have hi := h.joining m i howner
      obtain ⟨rfl, _⟩ := h.consistent.joining m i howner
      rw [howner] at hjoin
      dsimp only at hjoin
      rw [if_pos ⟨⟨i, hi⟩, rfl, hexited _⟩] at hjoin
      cases hjoin
  | draining =>
      rw [howner] at hdrain
      cases hqueue : s.workQueue <;> simp [hqueue] at hdrain
  | drainPicked t => simp [howner] at hdrain
  | drainRunning t => simp [howner] at hdrain
  | failed => exact absurd howner h.consistent.unfailed
  | constructing =>
      rw [howner] at hterminating
      cases hterminating
  | starting =>
      rw [howner] at hterminating
      cases hterminating
  | ready =>
      rw [howner] at hterminating
      cases hterminating

theorem holds_of_not_terminating {o : Owner} (h : o.terminating = false) (t : Task) : o.holds t = 0 := by
  cases o with
  | constructing | starting | ready => rfl
  | joining m i => cases h
  | draining => cases h
  | drainPicked t' => cases h
  | drainRunning t' => cases h
  | destroyed => cases h
  | failed => cases h

/-- When nothing moves any more there is nothing left to do. -/
theorem Serving.finished {s : Pool n} (h : s.Serving) (hquiet : s.Quiet) (hn : 0 < n ∨ s.terminateThreads = true) :
    s.workQueue = [] ∧ (s.completed.map Prod.snd).Perm (List.range s.dispatched) := by
  have hidle (t : Task) : total (Pc.holds t) s.pc = 0 := by
    apply total_eq_zero
    intro w
    rcases hquiet.pc w with hw | hw | hw <;> rw [hw] <;> rfl
  have hqueue : s.workQueue = [] ∧ ∀ t, s.owner.holds t = 0 := by
    cases hterm : s.terminateThreads with
    | true =>
        have howner := h.destroyed hquiet hterm
        exact ⟨h.consistent.drained howner, fun t => by rw [howner]; rfl⟩
    | false =>
        have hpositive := hn.resolve_right (by rw [hterm]; exact Bool.false_ne_true)
        have hterminating := h.consistent.terminate
        rw [hterm] at hterminating
        refine ⟨?_, holds_of_not_terminating hterminating.symm⟩
        by_contra hne
        obtain ⟨w, hw⟩ := h.consistent.served hpositive hterm hne
        rcases hquiet.pc w with hpc | hpc | hpc
        · exact (h.consistent.started h.constructed w).1 hpc
        · exact hw hpc
        · exact h.consistent.alive hterm w hpc
  refine ⟨hqueue.1, perm_range fun t => ?_⟩
  have hplaces := h.accounted.places t
  rw [places, hidle t, hqueue.1, hqueue.2 t] at hplaces
  simpa using hplaces

/-- A pool that nobody calls any more comes to rest: it takes a bounded number
of steps besides those that spurious wake-ups cost, and stops only when every
task has been run and, after the destructor was called, when this is over. -/
theorem settles {s s' : Pool n} (h : Reachable s) (hconstructed : s.owner.constructed = true)
    {acts : List (Action n)} (hcalls : ∀ a ∈ acts, a.isCall = false) (hexec : exec step s acts = some s') :
    (acts.map Action.progress).sum ≤ s.left + (acts.map Action.spurious).sum ∧
      (s'.Quiet → (s'.terminateThreads = true → s'.owner = .destroyed) ∧
        (0 < n ∨ s'.terminateThreads = true →
          s'.workQueue = [] ∧ (s'.completed.map Prod.snd).Perm (List.range s'.dispatched))) := by
  obtain ⟨hconsistent, haccounted⟩ := reachable_invariant h
  obtain ⟨hserving, hcost⟩ := exec_cost (P := fun a : Action n => a.isCall = false) step_serving acts hcalls
    ⟨hconsistent, haccounted, reachable_joining h, hconstructed⟩ hexec
  exact ⟨by omega, fun hquiet => ⟨hserving.destroyed hquiet, hserving.finished hquiet⟩⟩

theorem settles_queued : ∃ s s' : Pool 1, exec step (init 1) [.construct, .work 0, .poll, .dispatch [0]] = some s ∧
    exec step s [.work 0, .work 0, .work 0, .work 0] = some s' ∧
      s'.workQueue = [] ∧ (s'.completed.map Prod.snd).Perm (List.range s'.dispatched) := by
  have hstart : (exec step (init 1) [.construct, .work 0, .poll, .dispatch [0]]).map
      (fun s => s.owner.constructed) = some true := by decide
  obtain ⟨s, hs, hconstructed⟩ := Option.map_eq_some_iff.mp hstart
  have hend : ((exec step (init 1) [.construct, .work 0, .poll, .dispatch [0]]).bind
      fun s => exec step s [.work 0, .work 0, .work 0, .work 0]).map
        (fun s => (s.pc 0, s.owner)) = some (.waiting, .ready) := by decide
  rw [hs, Option.bind_some] at hend
  obtain ⟨s', hs', hend⟩ := Option.map_eq_some_iff.mp hend
  obtain ⟨hpc, howner⟩ := Prod.mk.inj hend
  have hquiet : s'.Quiet := by
    intro a hcall hwake
    cases a with
    | work w =>
        obtain rfl : w = 0 := Subsingleton.elim w 0
        rw [step, hpc]
    | join => rw [step, howner]
    | drain => rw [step, howner]
    | wakeUp w => cases hwake
    | construct => cases hcall
    | poll => cases hcall
    | dispatch woken => cases hcall
    | destroy => cases hcall
  obtain ⟨_, hsettled⟩ := settles ⟨_, hs⟩ hconstructed (by decide) hs'
  exact ⟨s, s', hs, hs', (hsettled hquiet).2 (.inl Nat.one_pos)⟩

end Pool

end SearchEngine.ThreadPool
