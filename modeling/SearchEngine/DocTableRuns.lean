import SearchEngine.DocTable
import SearchEngine.Library.Simulation
import Mathlib.Data.Set.Function

namespace SearchEngine.DocTable

open HashTable Simulation

inductive Op
  | add (docName : Bytes)
  | getDocID (docName : Bytes)
  | getDocName (docId : UInt64)

inductive Reply
  | id (docId : UInt64)
  | name (docName : Option Bytes)
  deriving DecidableEq

namespace Op

def names : Op → List Bytes
  | .add docName | .getDocID docName => [docName]
  | .getDocName _ => []

end Op

def step (table : DocTable) : Op → Run (DocTable × Reply)
  | .add docName => do
      let (table, docId) ← table.add docName
      return (table, .id docId)
  | .getDocID docName => do
      let docId ← table.getDocID docName
      return (table, .id docId)
  | .getDocName docId => do
      let docName ← table.getDocName docId
      return (table, .name docName)

def runFrom (ops : List Op) : Run (DocTable × List Reply) := do
  let table ← allocate
  run step table ops

/-- What a DocTable is for: the distinct names in the order they were first
added, the i-th with the ID i. -/
abbrev Registry := List Bytes

namespace Registry

/-- A new name needs bucket counts within int for one name more. -/
def add (names : Registry) (docName : Bytes) : Run (Registry × UInt64) :=
  if docName ∈ names then .ok (names, idAt (names.idxOf docName))
  else if 3 * bucketsFor 2 (names.length + 1) ≤ INT_MAX then .ok (names ++ [docName], idAt names.length)
  else .error .signedOverflow

def getDocID (names : Registry) (docName : Bytes) : UInt64 :=
  if docName ∈ names then idAt (names.idxOf docName) else INVALID_DOCID

def getDocName (names : Registry) (docId : UInt64) : Option Bytes := names[docId.toNat - 1]?

def step (names : Registry) : Op → Run (Registry × Reply)
  | .add docName => do
      let (names, docId) ← add names docName
      return (names, .id docId)
  | .getDocID docName => return (names, .id (getDocID names docName))
  | .getDocName docId => do
      verify333 (docId ≠ INVALID_DOCID)
      return (names, .name (getDocName names docId))

end Registry

/-- The table numbers the names: the i-th has the ID i, counted from one, in
both directions, and adding it again changes nothing. -/
structure Numbers (known : Set Bytes) (table : DocTable) (names : List Bytes) : Prop where
  nodup : names.Nodup
  numDocs : table.numDocs = names.length
  toNat : ∀ i < names.length, (idAt i).toNat = i + 1
  readd : ∀ i name, names[i]? = some name → table.add name = .ok (table, idAt i)
  docID : ∀ i name, names[i]? = some name → table.getDocID name = .ok (idAt i)
  docName : ∀ i name, names[i]? = some name → table.getDocName (idAt i) = .ok (some name)
  noID : ∀ name ∈ known, name ∉ names → table.getDocID name = .ok INVALID_DOCID
  noName : ∀ docId, names.length < docId.toNat → table.getDocName docId = .ok none
  rejects : table.getDocName INVALID_DOCID = .error .verify333

section

variable {table : DocTable} {names : List Bytes} {known : Set Bytes} {name : Bytes}

theorem idAt_toNat {i : Nat} (hi : i ≤ INT_MAX) : (idAt i).toNat = i + 1 := by
  unfold INT_MAX at hi
  simp only [idAt, UInt64.toNat_ofNat', Nat.reducePow]
  omega

theorem eq_idAt {docId : UInt64} (h : docId ≠ INVALID_DOCID) : docId = idAt (docId.toNat - 1) := by
  have hpos : docId.toNat ≠ 0 := fun hz => h (UInt64.toNat_inj.mp (by simpa [INVALID_DOCID] using hz))
  rw [idAt, Nat.sub_add_cancel (by omega), UInt64.ofNat_toNat]

/-- The names of the table are known, so no other known name has their hash. -/
structure Registered (known : Set Bytes) (table : DocTable) (names : List Bytes) : Prop where
  registers : Registers table names
  nodup : names.Nodup
  subset : ∀ name ∈ names, name ∈ known

theorem Registered.lookup_none (h : Registered known table names) (hinj : Set.InjOn hashString known)
    (hname : name ∈ known) (hnew : name ∉ names) : ∀ n ∈ names, hashString n ≠ hashString name := by
  intro n hn he
  exact hnew (hinj (h.subset n hn) hname he ▸ hn)

theorem Registered.add_old (h : Registers table names) {i : Nat} (hi : names[i]? = some name) :
    table.add name = .ok (table, idAt i) := by
  have hl := (h.nameToId (hashString name) (idAt i)).mpr ⟨i, name, hi, rfl, rfl⟩
  simp [add, hl]

theorem Registered.add_overflow (h : Registers table names) (hnew : ∀ n ∈ names, hashString n ≠ hashString name)
    (hbig : INT_MAX < 3 * bucketsFor 2 (names.length + 1)) : table.add name = .error .signedOverflow := by
  have hl := h.lookup_hash.mpr hnew
  have hover : table.idToName.insert ⟨table.maxId, name⟩ = .error .signedOverflow :=
    insert_overflow (by rw [h.ids.next, h.numIds]; exact hbig) _
  simp [add, hl, hover]

theorem add_agrees (h : Registered known table names) (hinj : Set.InjOn hashString known) (hname : name ∈ known) :
    Agrees (Registered known) (table.add name) (Registry.add names name) := by
  unfold Registry.add
  by_cases hmem : name ∈ names
  · have hi : names[names.idxOf name]? = some name := by simp [hmem]
    rw [if_pos hmem, Registered.add_old h.registers hi]
    exact .ok _ h
  · have hnew := h.lookup_none hinj hname hmem
    rw [if_neg hmem]
    by_cases hfit : 3 * bucketsFor 2 (names.length + 1) ≤ INT_MAX
    · obtain ⟨table', hadd⟩ := add_new h.registers hnew hfit
      have hl := h.registers.lookup_hash.mpr hnew
      rcases add_ok h.registers hadd with ⟨_, hold⟩ | ⟨_, _, hregisters⟩
      · rw [hl] at hold
        cases hold
      · rw [if_pos hfit, hadd]
        refine .ok _ ⟨hregisters, ?_, ?_⟩
        · rw [List.nodup_append]
          refine ⟨h.nodup, by simp, ?_⟩
          intro a ha b hb
          obtain rfl : b = name := by simpa using hb
          exact fun he => hmem (he ▸ ha)
        · intro n hn
          rcases List.mem_append.mp hn with hn | hn
          · exact h.subset n hn
          · obtain rfl : n = name := by simpa using hn
            exact hname
    · rw [if_neg hfit, Registered.add_overflow h.registers hnew (Nat.lt_of_not_le hfit)]
      exact .error _

theorem getDocID_registered (h : Registered known table names) (hinj : Set.InjOn hashString known)
    (hname : name ∈ known) : table.getDocID name = .ok (Registry.getDocID names name) := by
  unfold Registry.getDocID
  split
  · next hmem => exact getDocID_eq h.registers (by simp [hmem])
  · next hmem =>
    have hl := h.registers.lookup_hash.mpr (h.lookup_none hinj hname hmem)
    simp [getDocID, hl]

theorem getDocName_registered (h : Registered known table names) {docId : UInt64} (hid : docId ≠ INVALID_DOCID) :
    table.getDocName docId = .ok (Registry.getDocName names docId) := by
  have hlook : table.idToName.lookup docId = Registry.getDocName names docId := by
    refine Option.ext fun n => ?_
    rw [h.registers.idToName, Registry.getDocName]
    constructor
    · rintro ⟨i, hi, rfl⟩
      have hlt := (List.getElem?_eq_some_iff.mp hi).1
      have hle := h.registers.length_le
      rwa [idAt_toNat (by omega), Nat.add_sub_cancel]
    · intro hi
      exact ⟨_, hi, eq_idAt hid⟩
  simp [getDocName, hid, hlook, Option.map_map, Function.comp_def]

theorem step_agrees (hinj : Set.InjOn hashString known) (h : Registered known table names) (op : Op)
    (hop : ∀ name ∈ op.names, name ∈ known) :
    Agrees (Registered known) (step table op) (Registry.step names op) := by
  cases op with
  | add docName =>
      have hadd := add_agrees h hinj (hop docName (by simp [Op.names]))
      simp only [step, Registry.step]
      generalize table.add docName = x at hadd ⊢
      generalize Registry.add names docName = y at hadd ⊢
      cases hadd with
      | error e => exact .error e
      | ok docId h => exact .ok _ h
  | getDocID docName =>
      simp only [step, Registry.step, getDocID_registered h hinj (hop docName (by simp [Op.names])), Run.ok_bind]
      exact .ok _ h
  | getDocName docId =>
      by_cases hid : docId = INVALID_DOCID
      · simp only [step, Registry.step, getDocName, hid]
        exact .error _
      · simp only [step, Registry.step, getDocName_registered h hid, Run.ok_bind, ne_eq, hid, not_false_eq_true,
          decide_true, verify333_true]
        exact .ok _ h

theorem Registered.numbers (h : Registered known table names) (hinj : Set.InjOn hashString known) :
    Numbers known table names where
  nodup := h.nodup
  numDocs := h.registers.numIds
  toNat := by
    intro i hi
    have hle := h.registers.length_le
    exact idAt_toNat (by omega)
  readd := fun _ _ hi => Registered.add_old h.registers hi
  docID := fun _ _ hi => getDocID_eq h.registers hi
  docName := fun i _ hi => (getDocName_eq h.registers).mpr ⟨i, hi, rfl⟩
  noID := by
    intro name hname hnew
    rw [getDocID_registered h hinj hname, Registry.getDocID, if_neg hnew]
  noName := by
    intro docId hlarge
    have hid : docId ≠ INVALID_DOCID := by
      rintro rfl
      simp [INVALID_DOCID] at hlarge
    rw [getDocName_registered h hid, Registry.getDocName, List.getElem?_eq_none (by omega)]
  rejects := rfl

end

theorem Registry.step_prefix {names names' : Registry} {op : Op} {out : Reply}
    (h : Registry.step names op = .ok (names', out)) : names <+: names' := by
  cases op with
  | add docName =>
      obtain ⟨⟨names₁, docId⟩, hadd, hret⟩ := Run.bind_eq_ok.mp h
      obtain rfl : names₁ = names' := congrArg Prod.fst (Except.ok.inj hret)
      unfold Registry.add at hadd
      split at hadd
      · cases hadd
        exact List.prefix_rfl
      · split at hadd
        · cases hadd
          exact List.prefix_append _ _
        · cases hadd
  | getDocID docName =>
      cases h
      exact List.prefix_rfl
  | getDocName docId =>
      obtain ⟨_, _, hret⟩ := Run.bind_eq_ok.mp h
      cases hret
      exact List.prefix_rfl

theorem Registry.run_prefix {ops : List Op} {names names' : Registry} {outs : List Reply}
    (h : run Registry.step names ops = .ok (names', outs)) : names <+: names' := by
  induction ops generalizing names outs with
  | nil =>
      cases h
      exact List.prefix_rfl
  | cons op ops ih =>
      obtain ⟨⟨names₁, out⟩, hstep, h⟩ := Run.bind_eq_ok.mp h
      obtain ⟨⟨names₂, outs'⟩, hrest, hret⟩ := Run.bind_eq_ok.mp h
      obtain rfl : names₂ = names' := congrArg Prod.fst (Except.ok.inj hret)
      exact (Registry.step_prefix hstep).trans (ih hrest)

/-- Over every run from an empty table the calls have the outcomes of the
registry, the table numbers the names added so far, and later calls leave the
numbers of earlier ones as they are. -/
theorem docTable_numbers_names (known : Set Bytes) (hinj : Set.InjOn hashString known) (ops : List Op)
    (hops : ∀ op ∈ ops, ∀ name ∈ op.names, name ∈ known) :
    Agrees (Numbers known) (runFrom ops) (run Registry.step [] ops) ∧
      ∀ calls names outs names' outs', calls <+: ops → run Registry.step [] calls = .ok (names, outs) →
        run Registry.step [] ops = .ok (names', outs') → names <+: names' := by
  obtain ⟨table, halloc, h⟩ := allocate_registers
  constructor
  · rw [runFrom, halloc, Run.ok_bind]
    have hrun := run_agrees (R := Registered known) (fun op hop table names hR => step_agrees hinj hR op (hops op hop))
      (s := table) (a := []) ⟨h, List.nodup_nil, by simp⟩
    exact hrun.mono fun table names hR => hR.numbers hinj
  · rintro calls names outs names' outs' ⟨later, rfl⟩ hcalls hrun
    obtain ⟨names₁, outs₁, outs₂, h₁, h₂⟩ := run_append_ok hrun
    obtain rfl : names₁ = names := congrArg Prod.fst (Except.ok.inj (h₁.symm.trans hcalls))
    exact Registry.run_prefix h₂

theorem docTable_numbers_two_names :
    Set.InjOn hashString {[97], [98]} ∧
    Agrees (Numbers {[97], [98]}) (runFrom [.add [97], .add [98], .add [97], .getDocID [98]])
      (run Registry.step [] [.add [97], .add [98], .add [97], .getDocID [98]]) := by
  have hne : hashString [97] ≠ hashString [98] := by decide +kernel
  have hinj : Set.InjOn hashString {[97], [98]} := by
    rintro a (rfl | rfl) b (rfl | rfl) he
    · rfl
    · exact absurd he hne
    · exact absurd he.symm hne
    · rfl
  exact ⟨hinj, (docTable_numbers_names _ hinj _ (by simp [Op.names])).1⟩

/-- The ID that is never assigned is not answered with NULL: the program
exits. -/
theorem getDocName_invalid :
    ¬∀ (table : DocTable) (docId : UInt64), allocate = .ok table → table.getDocName docId = .ok none := by
  intro h
  obtain ⟨table, halloc, _⟩ := allocate_registers
  have hnone := h table INVALID_DOCID halloc
  cases hnone

end SearchEngine.DocTable
