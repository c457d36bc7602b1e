import SearchEngine.Resize
import SearchEngine.Library.Simulation

namespace SearchEngine.TableLedger

open HashTable HTIterator Simulation

variable {V : Type}

/-- The functions HashTable_Free is given: the client's, and the no-op of
MaybeResize. -/
inductive ValueFreeFn
  | client
  | HTNoOpFree
  deriving DecidableEq

/-- The calls made of value free functions, in order. -/
abbrev Log (V : Type) := List (ValueFreeFn × V)

/-- Pop elements off the chain list one at a time. -/
def freeChain (valueFree : ValueFreeFn) : Nat → LinkedList (HTKeyValue V) → Run (Log V)
  | 0, _ => .error .outOfFuel
  | fuel + 1, bucket =>
      if bucket.numElements > 0 then
        match bucket.pop with
        | none => .error .verify333
        | some (kv, bucket) => do
            let log ← freeChain valueFree fuel bucket
            return (valueFree, kv.value) :: log
      else return []

def freeBuckets (valueFree : ValueFreeFn) : List (LinkedList (HTKeyValue V)) → Run (Log V)
  | [] => return []
  | bucket :: buckets => do
      let log ← freeChain valueFree (bucket.numElements + 1) bucket
      let rest ← freeBuckets valueFree buckets
      return log ++ rest

def free (table : HashTable V) (valueFree : ValueFreeFn) : Run (Log V) := freeBuckets valueFree table.buckets

/-- The copy loop of MaybeResize, with the calls of its insertions. -/
def copyInto (ht : HashTable V) (insertInto : HashTable V → HTKeyValue V → Run (HashTable V × Log V)) :
    Nat → HTIterator → HashTable V → Run (HashTable V × Log V)
  | 0, _, _ => .error .outOfFuel
  | fuel + 1, it, newht => do
      if ← HTIterator.isValid ht it then
        match ← HTIterator.get ht it with
        | none => .error .verify333
        | some item =>
            let (newht, log) ← insertInto newht item
            let (it, _) ← HTIterator.next ht it
            let (newht, rest) ← copyInto ht insertInto fuel it newht
            return (newht, log ++ rest)
      else return (newht, [])

/-- Once the two records have been swapped, newht is the old table, and it is
freed with the no-op. -/
def maybeResize : Nat → HashTable V → Run (HashTable V × Log V)
  | 0, _ => .error .outOfFuel
  | depth + 1, ht => do
      if ht.numElements < (← intMul 3 ht.numBuckets) then return (ht, [])
      else
        let newht ← HashTable.allocate (← intMul ht.numBuckets 9)
        let it ← HTIterator.allocate ht
        let (newht, log) ← copyInto ht
          (fun newht item => do
            let (newht, log) ← maybeResize depth newht
            let (newht, _) ← newht.insertChain item
            return (newht, log))
          (ht.numElements + 1) it newht
        let frees ← free ht .HTNoOpFree
        return (newht, log ++ frees)

def insert (t : HashTable V) (newkeyvalue : HTKeyValue V) :
    Run (HashTable V × Option (HTKeyValue V) × Log V) := do
  let (t, log) ← maybeResize 2 t
  let (t, old) ← t.insertChain newkeyvalue
  return (t, old, log)

theorem freeChain_eq (valueFree : ValueFreeFn) (fuel : Nat) (bucket : LinkedList (HTKeyValue V))
    (hfuel : bucket.numElements < fuel) :
    freeChain valueFree fuel bucket = .ok (bucket.payloads.map fun kv => (valueFree, kv.value)) := by
  induction fuel generalizing bucket with
  | zero => omega
  | succ fuel ih =>
      cases hn : bucket.nodes with
      | nil => simp [freeChain, LinkedList.numElements, LinkedList.payloads, hn]
      | cons n ns =>
          obtain ⟨rest, hpop, hrest⟩ := LLIterator.pop_eq hn
          have hlen : bucket.numElements = rest.numElements + 1 := by simp [LinkedList.numElements, hn, hrest]
          have hpos : 0 < bucket.numElements := by omega
          simp only [freeChain, gt_iff_lt, hpos, if_true, hpop, ih rest (by omega), Run.ok_bind, Run.pure_eq_ok,
            LinkedList.payloads, hn, hrest, List.map_cons]

theorem free_eq (table : HashTable V) (valueFree : ValueFreeFn) :
    free table valueFree = .ok (table.pairs.map fun kv => (valueFree, kv.value)) := by
  unfold free pairs
  induction table.buckets with
  | nil => rfl
  | cons bucket buckets ih =>
      simp [freeBuckets, freeChain_eq valueFree _ bucket (Nat.lt_succ_self _), ih]

/-- The same outcome, with only calls of the no-op on the way. -/
inductive Logged {ρ : Type} : Run (ρ × Log V) → Run ρ → Prop
  | ok (r : ρ) (log : Log V) (h : ∀ e ∈ log, e.1 = .HTNoOpFree) : Logged (.ok (r, log)) (.ok r)
  | error (e : Fault) : Logged (.error e) (.error e)

section

variable {β ρ τ : Type}

theorem Logged.pure (r : ρ) : Logged (V := V) (.ok (r, [])) (.ok r) := .ok r [] (by simp)

theorem Logged.same (x : Run β) {f : β → Run (ρ × Log V)} {g : β → Run ρ} (h : ∀ b, Logged (f b) (g b)) :
    Logged (x >>= f) (x >>= g) := by
  cases x with
  | error e => exact .error e
  | ok b => exact h b

theorem Logged.seq {x : Run (ρ × Log V)} {y : Run ρ} {f : ρ × Log V → Run (τ × Log V)} {g : ρ → Run τ}
    (hx : Logged x y) (h : ∀ r log, (∀ e ∈ log, e.1 = .HTNoOpFree) → Logged (f (r, log)) (g r)) :
    Logged (x >>= f) (y >>= g) := by
  cases hx with
  | error e => exact .error e
  | ok r log hlog => exact h r log hlog

theorem Logged.last {x : Run (ρ × Log V)} {y : Run ρ} {f : ρ × Log V → Run (ρ × Log V)} (hx : Logged x y)
    (h : ∀ r log, (∀ e ∈ log, e.1 = .HTNoOpFree) → Logged (f (r, log)) (.ok r)) : Logged (x >>= f) y := by
  cases hx with
  | error e => exact .error e
  | ok r log hlog => exact h r log hlog

theorem noOp_append {log log' : Log V} (h : ∀ e ∈ log, e.1 = .HTNoOpFree) (h' : ∀ e ∈ log', e.1 = .HTNoOpFree) :
    ∀ e ∈ log ++ log', e.1 = .HTNoOpFree := by
  intro e he
  rcases List.mem_append.mp he with he | he
  · exact h e he
  · exact h' e he

end

theorem copyInto_logged {ht : HashTable V} {insertLogged : HashTable V → HTKeyValue V → Run (HashTable V × Log V)}
    {insertInto : HashTable V → HTKeyValue V → Run (HashTable V)}
    (hinsert : ∀ newht item, Logged (insertLogged newht item) (insertInto newht item)) (fuel : Nat) (it : HTIterator)
    (newht : HashTable V) :
    Logged (copyInto ht insertLogged fuel it newht) (HashTable.copyInto ht insertInto fuel it newht) := by
  induction fuel generalizing it newht with
  | zero => exact .error _
  | succ fuel ih =>
      simp only [copyInto, HashTable.copyInto]
      refine .same _ fun valid => ?_
      cases valid with
      | false => exact .pure newht
      | true =>
          simp only [if_true]
          refine .same _ fun kv => ?_
          cases kv with
          | none => exact .error _
          | some item =>
              refine (hinsert newht item).seq fun t log hlog => ?_
              exact .same _ fun r => (ih r.1 t).last fun t' log' hlog' => .ok t' _ (noOp_append hlog hlog')

/-- Resizing calls the no-op on every value of the old table, and the client's
function on none. -/
theorem maybeResize_logged (depth : Nat) (ht : HashTable V) :
    Logged (maybeResize depth ht) (HashTable.maybeResize depth ht) := by
  induction depth generalizing ht with
  | zero => exact .error _
  | succ depth ih =>
      simp only [maybeResize, HashTable.maybeResize]
      refine .same _ fun bound => ?_
      split
      · exact .pure ht
      · refine .same _ fun n => .same _ fun newht => .same _ fun it => ?_
        have hcopy := @copyInto_logged V ht
          (fun newht item => do
            let (newht, log) ← maybeResize depth newht
            let (newht, _) ← newht.insertChain item
            return (newht, log))
          (fun newht item => do
            let newht ← HashTable.maybeResize depth newht
            let (newht, _) ← newht.insertChain item
            return newht)
          (fun newht item => (ih newht).seq fun t log hlog => .same _ fun r => .ok r.1 log hlog)
          (ht.numElements + 1) it newht
        refine hcopy.last fun t log hlog => ?_
        rw [free_eq, Run.ok_bind]
        refine .ok t _ (noOp_append hlog fun e he => ?_)
        obtain ⟨kv, _, rfl⟩ := List.mem_map.mp he
        rfl

theorem insert_logged (t : HashTable V) (kv : HTKeyValue V) :
    (∃ e, insert t kv = .error e ∧ t.insert kv = .error e) ∨
      ∃ t' old log, insert t kv = .ok (t', old, log) ∧ t.insert kv = .ok (t', old) ∧ ∀ e ∈ log, e.1 = .HTNoOpFree := by
  have h := maybeResize_logged 2 t
  unfold insert HashTable.insert
  generalize maybeResize 2 t = x at h ⊢
  generalize HashTable.maybeResize 2 t = y at h ⊢
  cases h with
  | error e => exact .inl ⟨e, rfl, rfl⟩
  | ok t₁ log hlog =>
      simp only [Run.ok_bind]
      cases t₁.insertChain kv with
      | error e => exact .inl ⟨e, rfl, rfl⟩
      | ok r => exact .inr ⟨r.1, r.2, log, rfl, rfl, hlog⟩

/-- An iterator is undefined until it is manufactured, and again after the
table was mutated in another way. -/
structure State (V : Type) where
  table : HashTable V
  iters : Nat → Option HTIterator
  log : Log V

inductive Op (V : Type)
  | insert (newkeyvalue : HTKeyValue V)
  | remove (key : UInt64)
  | iterator (i : Nat)
  | next (i : Nat)
  | iterRemove (i : Nat)

def Permitted (s : State V) : Op V → Prop
  | .next i | .iterRemove i => (s.iters i).isSome
  | .insert _ | .remove _ | .iterator _ => True

instance (s : State V) (op : Op V) : Decidable (Permitted s op) := by
  unfold Permitted
  split <;> infer_instance

def iter (s : State V) (i : Nat) : Run HTIterator :=
  match s.iters i with
  | none => .error .badAccess
  | some it => .ok it

/-- What every call keeps: the load factor, iterators that are on a pair or
past the end, and no call of the client's function. -/
structure Sound (s : State V) : Prop where
  loaded : s.table.Loaded
  iters : ∀ i it, s.iters i = some it → ∃ rest, Points s.table it rest
  log : ∀ e ∈ s.log, e.1 = .HTNoOpFree

theorem Sound.place {s : State V} (h : Sound s) (i : Nat) {it : HTIterator} {rest : List (HTKeyValue V)}
    (hit : Points s.table it rest) : Sound ⟨s.table, Function.update s.iters i (some it), s.log⟩ where
  loaded := h.loaded
  iters := by
    intro j it' hj
    by_cases hij : j = i
    · subst hij
      obtain rfl : it = it' := by simpa using hj
      exact ⟨rest, hit⟩
    · exact h.iters j it' (by simpa [hij] using hj)
  log := h.log

variable [DecidableEq V]

/-- One call, with the pair whose value the caller owns after it. -/
def step (s : State V) : Op V → Run (State V × Option (HTKeyValue V))
  | .insert kv => do
      let (table, old, log) ← insert s.table kv
      return (⟨table, fun _ => none, s.log ++ log⟩, old)
  | .remove key => do
      let (table, kv) ← s.table.remove key
      return (⟨table, fun _ => none, s.log⟩, kv)
  | .iterator i => do
      let it ← HTIterator.allocate s.table
      return (⟨s.table, Function.update s.iters i (some it), s.log⟩, none)
  | .next i => do
      let it ← iter s i
      let (it, _) ← HTIterator.next s.table it
      return (⟨s.table, Function.update s.iters i (some it), s.log⟩, none)
  | .iterRemove i => do
      let it ← iter s i
      let (table, it, kv) ← HTIterator.remove s.table it
      return (⟨table, Function.update (fun _ => none) i (some it), s.log⟩, kv)

def inserted (ops : List (Op V)) : List V :=
  ops.filterMap fun
    | .insert kv => some kv.value
    | _ => none

def handedBack (outs : List (Option (HTKeyValue V))) : List V :=
  outs.filterMap fun out => out.map HTKeyValue.value

def values (t : HashTable V) : List V := t.pairs.map HTKeyValue.value

/-- One call: an overflow of a bucket count, or the values it hands back and
leaves in the table are those it was given and found there. -/
theorem step_ledger {s : State V} (h : Sound s) (op : Op V) (hop : Permitted s op) :
    step s op = .error .signedOverflow ∨
      ∃ s' out, step s op = .ok (s', out) ∧ Sound s' ∧
        (handedBack [out] ++ values s'.table).Perm (inserted [op] ++ values s.table) := by
  cases op with
  | insert kv =>
      by_cases hfit : 3 * s.table.nextNumBuckets ≤ INT_MAX
      · obtain ⟨t', hins, hspec, _, hloaded⟩ := insert_spec h.loaded hfit kv
        rcases insert_logged s.table kv with ⟨e, _, he⟩ | ⟨t₁, old, log, hlogged, hplain, hlog⟩
        · rw [hins] at he
          cases he
        · rw [hins] at hplain
          cases hplain
          refine .inr ⟨⟨t', fun _ => none, s.log ++ log⟩, _, by simp only [step, hlogged]; rfl,
            ⟨hloaded, by simp, noOp_append h.log hlog⟩, ?_⟩
          have hperm := hspec.perm
          cases hl : s.table.lookup kv.key with
          | none => simpa [handedBack, inserted, values, hl] using hperm
          | some value => simpa [handedBack, inserted, values, hl] using hperm
      · have hover := insert_overflow (Nat.lt_of_not_le hfit) kv
        rcases insert_logged s.table kv with ⟨e, hlogged, he⟩ | ⟨t₁, old, log, _, hplain, _⟩
        · obtain rfl : Fault.signedOverflow = e := Except.error.inj (hover.symm.trans he)
          exact .inl (by simp [step, hlogged])
        · rw [hover] at hplain
          cases hplain
  | remove key =>
      obtain ⟨t', hrem, hspec, hb⟩ := HashTable.remove_spec s.table key
      refine .inr ⟨⟨t', fun _ => none, s.log⟩, _, by simp only [step, hrem]; rfl,
        ⟨hspec.loaded hb h.loaded, by simp, h.log⟩, ?_⟩
      have hperm := hspec.values_perm
      cases hl : s.table.lookup key with
      | none => simpa [handedBack, inserted, values, hl] using hperm
      | some value => simpa [handedBack, inserted, values, hl] using hperm
  | iterator i =>
      obtain ⟨it, halloc, hit⟩ := HTIterator.allocate_spec s.table
      exact .inr ⟨_, none, by simp only [step, halloc]; rfl, h.place i hit, .refl _⟩
  | next i =>
      obtain ⟨it, hi⟩ := Option.isSome_iff_exists.mp hop
      obtain ⟨rest, hit⟩ := h.iters i it hi
      have hiter : iter s i = .ok it := by simp [iter, hi]
      cases rest with
      | nil => exact .inr ⟨_, none, by simp only [step, hiter, Run.ok_bind, next_nil hit]; rfl, h.place i hit, .refl _⟩
      | cons kv rest =>
          obtain ⟨it', hnext, hit'⟩ := next_cons hit
          exact .inr ⟨_, none, by simp only [step, hiter, Run.ok_bind, hnext]; rfl, h.place i hit', .refl _⟩
  | iterRemove i =>
      obtain ⟨it, hi⟩ := Option.isSome_iff_exists.mp hop
      obtain ⟨rest, hit⟩ := h.iters i it hi
      have hiter : iter s i = .ok it := by simp [iter, hi]
      cases rest with
      | nil =>
          have hnone : HTIterator.remove s.table it = .ok (s.table, it, none) := by
            simp [HTIterator.remove, get_nil hit]
          refine .inr ⟨⟨s.table, Function.update (fun _ => none) i (some it), s.log⟩, none,
            by simp only [step, hiter, Run.ok_bind, hnone]; rfl, ?_, .refl _⟩
          exact Sound.place (s := ⟨s.table, fun _ => none, s.log⟩) ⟨h.loaded, by simp, h.log⟩ i hit
      | cons kv rest =>
          have hl := mem_pairs.mp (hit.subset kv (by simp))
          obtain ⟨t', it', hremove, hit', hspec, hb⟩ := remove_cons hit
          refine .inr ⟨⟨t', Function.update (fun _ => none) i (some it'), s.log⟩, some kv,
            by simp only [step, hiter, Run.ok_bind, hremove]; rfl, ?_, ?_⟩
          · exact Sound.place (s := ⟨t', fun _ => none, s.log⟩)
              ⟨hspec.loaded hb h.loaded, by simp, h.log⟩ i hit'
          · have hperm := hspec.values_perm
            simpa [handedBack, inserted, values, hl] using hperm

theorem run_ledger {s : State V} (h : Sound s) (ops : List (Op V)) (hops : Along step Permitted s ops) :
    run step s ops = .error .signedOverflow ∨
      ∃ s' outs, run step s ops = .ok (s', outs) ∧ Sound s' ∧
        (handedBack outs ++ values s'.table).Perm (inserted ops ++ values s.table) := by
  induction ops generalizing s with
  | nil => exact .inr ⟨s, [], rfl, h, .refl _⟩
  | cons op ops ih =>
      obtain ⟨hop, hops⟩ := hops
      rcases step_ledger h op hop with hover | ⟨s₁, out, hstep, h₁, hperm⟩
      · exact .inl (by simp only [run, hover]; rfl)
      · rcases ih h₁ (hops _ hstep) with hover | ⟨s', outs, hrun, h', hperm'⟩
        · exact .inl (by simp only [run, hstep, Run.ok_bind, hover, Run.error_bind])
        · refine .inr ⟨s', out :: outs, by simp only [run, hstep, Run.ok_bind, hrun]; rfl, h', ?_⟩
          have hout : handedBack (out :: outs) = handedBack [out] ++ handedBack outs :=
            List.filterMap_append (l := [out])
          have hin : inserted (op :: ops) = inserted [op] ++ inserted ops := List.filterMap_append (l := [op])
          rw [hout, hin, List.append_assoc, List.append_assoc]
          calc
            (handedBack [out] ++ (handedBack outs ++ values s'.table)).Perm
                (handedBack [out] ++ (inserted ops ++ values s₁.table)) := hperm'.append_left _
            _ |>.Perm (inserted ops ++ (handedBack [out] ++ values s₁.table)) := List.perm_append_comm_assoc _ _ _
            _ |>.Perm (inserted ops ++ (inserted [op] ++ values s.table)) := hperm.append_left _
            _ |>.Perm (inserted [op] ++ (inserted ops ++ values s.table)) := List.perm_append_comm_assoc _ _ _

def runFrom (n : Int) (ops : List (Op V)) : Run (State V × List (Option (HTKeyValue V))) := do
  let table ← HashTable.allocate n
  run step ⟨table, fun _ => none, []⟩ ops

/-- In every run that no bucket count leaves int in, the values inserted are
those handed back on the way and those that HashTable_Free then calls the
client's function on, and no resize has called it. -/
theorem values_handed_back_once (n : Int) (hn : 0 < n) (ops : List (Op V))
    (hops : ∀ table, HashTable.allocate n = .ok table → Along step Permitted ⟨table, fun _ => none, []⟩ ops)
    (hfit : runFrom n ops ≠ .error .signedOverflow) :
    ∃ s outs frees, runFrom n ops = .ok (s, outs) ∧ free s.table .client = .ok frees ∧
      (∀ e ∈ s.log, e.1 = .HTNoOpFree) ∧ (∀ e ∈ frees, e.1 = .client) ∧
      (handedBack outs ++ frees.map Prod.snd).Perm (inserted ops) := by
  obtain ⟨table, halloc, hzero, _⟩ := allocate_spec (V := V) hn
  have hrunFrom : runFrom n ops = run step ⟨table, fun _ => none, []⟩ ops := by rw [runFrom, halloc, Run.ok_bind]
  have hsound : Sound (⟨table, fun _ => none, []⟩ : State V) :=
    ⟨by rw [Loaded, hzero]; exact Nat.zero_le _, by simp, by simp⟩
  have hempty : values table = [] := by
    have hl := table.length_pairs
    rw [hzero, List.length_eq_zero_iff] at hl
    rw [values, hl]
    rfl
  rw [hrunFrom] at hfit ⊢
  rcases run_ledger hsound ops (hops table halloc) with hover | ⟨s, outs, hrun, h, hperm⟩
  · exact absurd hover hfit
  · refine ⟨s, outs, _, hrun, free_eq s.table .client, h.log, ?_, ?_⟩
    · intro e he
      obtain ⟨kv, _, rfl⟩ := List.mem_map.mp he
      rfl
    · rw [hempty, List.append_nil] at hperm
      simpa [values, Function.comp_def] using hperm

theorem values_handed_back_resizing :
    ∃ s outs frees, runFrom 1 [.insert ⟨1, 'a'⟩, .insert ⟨2, 'b'⟩, .insert ⟨3, 'c'⟩, .insert ⟨4, 'd'⟩,
        .insert ⟨2, 'e'⟩, .iterator 0, .next 0, .iterRemove 0, .remove 1] = .ok (s, outs) ∧
      free s.table .client = .ok frees ∧ (∀ e ∈ s.log, e.1 = .HTNoOpFree) ∧ (∀ e ∈ frees, e.1 = .client) ∧
      (handedBack outs ++ frees.map Prod.snd).Perm ['a', 'b', 'c', 'd', 'e'] := by
  refine values_handed_back_once 1 (by decide) _ (fun table halloc => ?_) fun hover => ?_
  · obtain rfl := Except.ok.inj halloc
    decide +kernel
  · have hok : (runFrom 1 [.insert ⟨1, 'a'⟩, .insert ⟨2, 'b'⟩, .insert ⟨3, 'c'⟩, .insert ⟨4, 'd'⟩,
        .insert ⟨2, 'e'⟩, .iterator 0, .next 0, .iterRemove 0, .remove 1]).isOk = true := by decide +kernel
    rw [hover] at hok
    cases hok

end SearchEngine.TableLedger
