import SearchEngine.HTIterator

namespace SearchEngine.HTIteration

open HashTable HTIterator

variable {V : Type}

/-- What the client does with the pair its iterator is on. -/
inductive Choice
  | keep
  | remove
  deriving DecidableEq

/-- One step of the client's loop: the pair it was given, the result of
HTIterator_Next when it called that, and whether the iterator is valid
afterwards. -/
structure Visited (V : Type) where
  pair : HTKeyValue V
  next : Option Bool
  valid : Bool

variable [DecidableEq V]

def visit (choice : Choice) (t : HashTable V) (it : HTIterator) : Run (HashTable V × HTIterator × Visited V) :=
  match choice with
  | .keep => do
      match ← HTIterator.get t it with
      | none => .error .assertFailed
      | some kv =>
          let (it, more) ← HTIterator.next t it
          let valid ← HTIterator.isValid t it
          return (t, it, ⟨kv, some more, valid⟩)
  | .remove => do
      match ← HTIterator.remove t it with
      | (_, _, none) => .error .assertFailed
      | (t, it, some kv) =>
          let valid ← HTIterator.isValid t it
          return (t, it, ⟨kv, none, valid⟩)

/-- The loop goes on while the iterator is valid and the client has choices. -/
def iterate : List Choice → HashTable V → HTIterator → Run (HashTable V × HTIterator × List (Visited V))
  | [], t, it => return (t, it, [])
  | choice :: choices, t, it => do
      if ← HTIterator.isValid t it then
        let (t, it, v) ← visit choice t it
        let (t, it, vs) ← iterate choices t it
        return (t, it, v :: vs)
      else return (t, it, [])

/-- The pairs passed with HTIterator_Next. -/
def passed (vs : List (Visited V)) : List (HTKeyValue V) :=
  (vs.filter fun v => v.next.isSome).map Visited.pair

omit [DecidableEq V] in
theorem isValid_points {t : HashTable V} {it : HTIterator} {rest : List (HTKeyValue V)} (h : Points t it rest) :
    HTIterator.isValid t it = .ok (!rest.isEmpty) := by
  cases rest with
  | nil => exact isValid_nil h
  | cons kv rest => exact isValid_cons h

/-- One step hands out the next pair, and leaves it in the table exactly when
it was passed with HTIterator_Next. -/
theorem visit_spec {t : HashTable V} {it : HTIterator} {kv : HTKeyValue V} {rest before : List (HTKeyValue V)}
    (h : Points t it (kv :: rest)) (hpairs : t.pairs.Perm (before ++ kv :: rest)) (choice : Choice) :
    ∃ t' it' v, visit choice t it = .ok (t', it', v) ∧ Points t' it' rest ∧ v.pair = kv ∧
      t'.pairs.Perm (before ++ passed [v] ++ rest) ∧ ∀ more, v.next = some more → more = v.valid := by
  cases choice with
  | keep =>
      obtain ⟨it', hnext, hpoints⟩ := next_cons h
      refine ⟨t, it', ⟨kv, some (!rest.isEmpty), !rest.isEmpty⟩, ?_, hpoints, rfl, ?_, ?_⟩
      · simp [visit, get_cons h, hnext, isValid_points hpoints]
      · simpa [passed] using hpairs
      · intro more hmore
        exact (Option.some.inj hmore).symm
  | remove =>
      have hl := mem_pairs.mp (h.subset kv (by simp))
      obtain ⟨t', it', hremove, hpoints, hrem, _⟩ := remove_cons h
      refine ⟨t', it', ⟨kv, none, !rest.isEmpty⟩, ?_, hpoints, rfl, ?_, ?_⟩
      · simp [visit, hremove, isValid_points hpoints]
      · have hperm : (kv :: t'.pairs).Perm (kv :: (before ++ rest)) :=
          (hrem.perm hl).symm.trans (hpairs.trans List.perm_middle)
        simpa [passed] using hperm.cons_inv
      · intro more hmore
        cases hmore

theorem iterate_spec (choices : List Choice) {t : HashTable V} {it : HTIterator} {rest before : List (HTKeyValue V)}
    (h : Points t it rest) (hpairs : t.pairs.Perm (before ++ rest)) :
    ∃ t' it' vs, iterate choices t it = .ok (t', it', vs) ∧ Points t' it' (rest.drop choices.length) ∧
      vs.map Visited.pair = rest.take choices.length ∧
      t'.pairs.Perm (before ++ passed vs ++ rest.drop choices.length) ∧
      ∀ v ∈ vs, ∀ more, v.next = some more → more = v.valid := by
  induction choices generalizing t it rest before with
  | nil => exact ⟨t, it, [], rfl, h, by simp, by simpa [passed] using hpairs, by simp⟩
  | cons choice choices ih =>
      cases rest with
      | nil => exact ⟨t, it, [], by simp [iterate, isValid_nil h], h, by simp, by simpa [passed] using hpairs, by simp⟩
      | cons kv rest =>
          obtain ⟨t₁, it₁, v, hvisit, hpoints, rfl, hpairs₁, hnext⟩ := visit_spec h hpairs choice
          obtain ⟨t', it', vs, hrest, hpoints', hvs, hpairs', hnexts⟩ := ih hpoints hpairs₁
          refine ⟨t', it', v :: vs, ?_, hpoints', ?_, ?_, ?_⟩
          · simp [iterate, isValid_cons h, hvisit, hrest]
          · simp [hvs]
          · have happend : passed (v :: vs) = passed [v] ++ passed vs := by
              rw [passed, passed, passed, ← List.map_append, ← List.filter_append, List.singleton_append]
            rw [happend, ← List.append_assoc]
            exact hpairs'
          · intro w hw
            rcases List.mem_cons.mp hw with rfl | hw
            · exact hnext
            · exact hnexts w hw

/-- Whatever the client chooses, the iteration takes as many steps as there
were pairs, hands out each pair once, and leaves those that were passed. -/
theorem iteration_visits_once (t : HashTable V) (choices : List Choice) :
    ∃ it₀ t' it' vs, HTIterator.allocate t = .ok it₀ ∧ iterate choices t it₀ = .ok (t', it', vs) ∧
      vs.length = min choices.length t.numElements ∧
      HTIterator.isValid t' it' = .ok (decide (choices.length < t.numElements)) ∧
      (vs.map Visited.pair).Nodup ∧ vs.map Visited.pair = t.pairs.take choices.length ∧
      (∀ v ∈ vs, ∀ more, v.next = some more → more = v.valid) ∧
      (t.numElements ≤ choices.length → vs.map Visited.pair = t.pairs ∧ t'.pairs.Perm (passed vs)) := by
  obtain ⟨it₀, halloc, hpoints⟩ := HTIterator.allocate_spec t
  obtain ⟨t', it', vs, hrun, hpoints', hvs, hpairs, hnext⟩ := iterate_spec choices hpoints
    (show t.pairs.Perm ([] ++ t.pairs) by simp)
  have hlen := congrArg List.length hvs
  rw [List.length_map, List.length_take, length_pairs] at hlen
  refine ⟨it₀, t', it', vs, halloc, hrun, hlen, ?_, ?_, hvs, hnext, fun hall => ?_⟩
  · have hleft : (!(t.pairs.drop choices.length).isEmpty) = decide (choices.length < t.pairs.length) := by
      rw [Bool.eq_iff_iff]
      simp
    rw [isValid_points hpoints', hleft, length_pairs]
  · rw [hvs]
    exact t.nodup_pairs.sublist (List.take_sublist _ _)
  · rw [← length_pairs] at hall
    rw [List.take_of_length_le hall] at hvs
    rw [List.drop_of_length_le hall] at hpairs
    exact ⟨hvs, by simpa using hpairs⟩

end SearchEngine.HTIteration
