import SearchEngine.ListSequence

namespace SearchEngine.ListSequence

open Simulation DoublyLinked

variable {α : Type}

/-- The nodes reachable from the head are the live ones, no node is freed
twice, and LinkedList_Free frees those that are left. -/
structure Owned (list : PointerList α) : Prop where
  live : ∀ a, Reaches list.heap list.head a ↔ list.heap.Live a
  once : ∀ a, list.heap.frees a ≤ 1
  freed : ∃ heap payloads, list.free = .ok (heap, payloads) ∧ heap.top = list.heap.top ∧
    ∀ a < heap.top, heap.frees a = 1

theorem owned_of_owns {list : PointerList α} {ns : List (Addr × α)} (h : list.Shape ns)
    (hown : list.heap.Owns (· ∈ addrs ns)) : Owned list where
  live := by
    intro a
    rw [h.head, reaches_iff h.linked, hown.live_iff a]
  once := hown.frees_le
  freed := by
    refine ⟨_, _, PointerList.free_spec h, Heap.top_foldl_free _ _, fun a ha => ?_⟩
    have hnone := hown.foldl_free h.distinct fun a ha => ha
    rcases hnone.split a ha with ⟨⟨hin, hout⟩, _⟩ | ⟨_, hone⟩
    · exact absurd hin hout
    · exact hone

theorem init_owns : (State.init : State α).list.heap.Owns (· ∈ addrs ([] : List (Addr × α))) :=
  ⟨fun a ha => absurd ha (Nat.not_lt_zero a), fun a _ => ⟨by simp, rfl⟩⟩

/-- Without an append every run keeps the account of the nodes. -/
theorem run_owned {ops : List (Op α)} {s : State α} {outs : List (Reply α)} (hops : ∀ p, Op.append p ∉ ops)
    (hrun : run State.step State.init ops = .ok (s, outs)) : Owned s.list := by
  have h : Agrees (fun (s : State α) q => ∃ ns, Represents s q ns ∧ s.list.heap.Owns (· ∈ addrs ns))
      (run State.step State.init ops) (run Sequence.step Sequence.init ops) := by
    refine run_agrees (fun op hop s q hR => ?_) ⟨[], init_represents, init_owns⟩
    obtain ⟨ns, h, hown⟩ := hR
    refine (step_agrees h op).mono fun s' q' hstep => ?_
    obtain ⟨ns', h', hkeep⟩ := hstep
    exact ⟨ns', h', hkeep (fun p he => hops p (he ▸ hop)) hown⟩
  rw [hrun] at h
  obtain ⟨q, _, ns, hR, hown⟩ := h.of_ok
  exact owned_of_owns hR.shape hown

/-- The node that an append links in is dead already. -/
theorem append_not_owned {l l' : PointerList α} {ns : List (Addr × α)} (h : l.Shape ns) {p : α}
    (happend : l.append p = .ok l') : ¬Owned l' := by
  obtain ⟨l₁, hok, hshape, hsame⟩ := PointerList.append_spec h p
  obtain rfl : l₁ = l' := by
    rw [hok] at happend
    obtain ⟨_, _, he⟩ := Run.bind_eq_ok.mp happend
    exact Except.ok.inj he
  intro hown
  have hreach : Reaches l₁.heap l₁.head l.heap.top := by
    rw [hshape.head, reaches_iff hshape.linked]
    simp
  have hlive := ((hown.live _).mp hreach).2
  simp [hsame.frees] at hlive

theorem run_append_not_owned {calls : List (Op α)} {p : α} {s : State α} {outs : List (Reply α)}
    (hrun : run State.step State.init (calls ++ [.append p]) = .ok (s, outs)) : ¬Owned s.list := by
  obtain ⟨s₀, _, outs', hcalls, hlast⟩ := run_append_ok hrun
  have h := run_represents calls
  rw [hcalls] at h
  obtain ⟨q, _, ns, hR⟩ := h.of_ok
  obtain ⟨⟨s₁, out⟩, hstep, hret⟩ := Run.bind_eq_ok.mp hlast
  obtain ⟨l', happend, hmutated⟩ := Run.bind_eq_ok.mp hstep
  have hs₁ : State.mutated l' = s₁ := congrArg Prod.fst (Except.ok.inj hmutated)
  have hs : s₁ = s := congrArg Prod.fst (Except.ok.inj hret)
  rw [← hs, ← hs₁]
  exact append_not_owned hR.shape happend

/-- The property holds in every state of a run exactly when the run has no
append in it. -/
theorem nodes_owned_iff_no_append (ops : List (Op α)) (s : State α) (outs : List (Reply α))
    (hrun : run State.step State.init ops = .ok (s, outs)) :
    (∀ calls s' outs', calls <+: ops → run State.step State.init calls = .ok (s', outs') → Owned s'.list) ↔
      ∀ p, Op.append p ∉ ops := by
  constructor
  · intro hall p hp
    obtain ⟨before, after, rfl⟩ := List.append_of_mem hp
    have hsplit : before ++ Op.append p :: after = (before ++ [Op.append p]) ++ after := by simp
    rw [hsplit] at hrun
    obtain ⟨s₁, outs₁, _, hrun₁, _⟩ := run_append_ok hrun
    exact run_append_not_owned hrun₁ (hall _ s₁ outs₁ (hsplit ▸ List.prefix_append _ _) hrun₁)
  · intro hops calls s' outs' hcalls hrun'
    exact run_owned (fun p hp => hops p (hcalls.subset hp)) hrun'

theorem nodes_owned_push_remove :
    ∃ s outs, run State.step State.init [.push 5, .push 4, .iterator 0, .next 0, .remove 0, .pop] = .ok (s, outs) ∧
      ((∀ calls s' outs', calls <+: [.push 5, .push 4, .iterator 0, .next 0, .remove 0, .pop] →
        run State.step State.init calls = .ok (s', outs') → Owned s'.list) ↔
        ∀ p : Nat, Op.append p ∉ [.push 5, .push 4, .iterator 0, .next 0, .remove 0, .pop]) :=
  ⟨_, _, rfl, nodes_owned_iff_no_append _ _ _ rfl⟩

/-- One append is enough: the list's only node is reachable and freed. -/
theorem append_frees_linked_node :
    ¬∀ (ops : List (Op Nat)) s outs, run State.step State.init ops = .ok (s, outs) → Owned s.list := by
  intro h
  have hlive := ((h [.append 7] _ _ rfl).live 0).mp (.here 0)
  exact absurd hlive.2 (by decide)

end SearchEngine.ListSequence
