import Mathlib.Data.List.AList
import Mathlib.Data.List.Induction

/-! Association maps that are filled by inserting one binding after another. -/

namespace SearchEngine.LastBinding

variable {κ α : Type} [DecidableEq κ]

def bindAll (m : AList fun _ : κ => α) (kvs : List (κ × α)) : AList fun _ : κ => α :=
  kvs.foldl (fun m kv => m.insert kv.1 kv.2) m

/-- The value that the last binding of a key gives it. -/
def last (kvs : List (κ × α)) (k : κ) : Option α := (kvs.reverse.find? fun kv => kv.1 = k).map Prod.snd

theorem bindAll_append (m : AList fun _ : κ => α) (kvs more : List (κ × α)) :
    bindAll m (kvs ++ more) = bindAll (bindAll m kvs) more :=
  List.foldl_append

theorem last_append (kvs more : List (κ × α)) (k : κ) : last (kvs ++ more) k = (last more k).or (last kvs k) := by
  rw [last, List.reverse_append, List.find?_append, last, last]
  cases more.reverse.find? fun kv => kv.1 = k <;> rfl

theorem last_singleton (kv : κ × α) (k : κ) : last [kv] k = if kv.1 = k then some kv.2 else none := by
  by_cases h : kv.1 = k <;> simp [last, h]

theorem last_eq_none {kvs : List (κ × α)} {k : κ} : last kvs k = none ↔ k ∉ kvs.map Prod.fst := by
  simp only [last, Option.map_eq_none_iff, List.find?_eq_none, List.mem_reverse, decide_eq_true_eq, List.mem_map]
  constructor
  · rintro h ⟨kv, hkv, hk⟩
    exact h kv hkv hk
  · intro h kv hkv hk
    exact h ⟨kv, hkv, hk⟩

/-- What was bound last counts, and what was there before only where nothing
was bound. -/
theorem lookup_bindAll (m : AList fun _ : κ => α) (kvs : List (κ × α)) (k : κ) :
    (bindAll m kvs).lookup k = (last kvs k).or (m.lookup k) := by
  induction kvs using List.reverseRecOn with
  | nil => rfl
  | append_singleton kvs kv ih =>
      rw [bindAll_append, last_append, last_singleton]
      change ((bindAll m kvs).insert kv.1 kv.2).lookup k = _
      by_cases h : kv.1 = k
      · subst h
        rw [AList.lookup_insert, if_pos rfl]
        rfl
      · rw [AList.lookup_insert_ne (Ne.symm h), ih, if_neg h, Option.none_or]

end SearchEngine.LastBinding
