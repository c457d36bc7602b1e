import SearchEngine.Resize

namespace SearchEngine

structure DocTable where
  idToName : HashTable Bytes
  nameToId : HashTable UInt64
  maxId : UInt64

namespace DocTable

open HashTable

def HASHTABLE_INITIAL_NUM_BUCKETS : Int := 2

def INVALID_DOCID : UInt64 := 0

def allocate : Run DocTable := do
  let idToName ← HashTable.allocate HASHTABLE_INITIAL_NUM_BUCKETS
  let nameToId ← HashTable.allocate HASHTABLE_INITIAL_NUM_BUCKETS
  return ⟨idToName, nameToId, 1⟩

def numDocs (table : DocTable) : Nat := table.idToName.numElements

def add (table : DocTable) (docName : Bytes) : Run (DocTable × UInt64) := do
  match ← table.nameToId.find (hashString docName) with
  | some kv => return (table, kv.value)
  | none =>
      let docId := table.maxId
      let (idToName, _) ← table.idToName.insert ⟨docId, docName⟩
      let (nameToId, _) ← table.nameToId.insert ⟨hashString docName, docId⟩
      return (⟨idToName, nameToId, table.maxId + 1⟩, docId)

def getDocID (table : DocTable) (docName : Bytes) : Run UInt64 := do
  match ← table.nameToId.find (hashString docName) with
  | some kv => return kv.value
  | none => return INVALID_DOCID

def getDocName (table : DocTable) (docId : UInt64) : Run (Option Bytes) := do
  verify333 (docId ≠ INVALID_DOCID)
  let found ← table.idToName.find docId
  return found.map HTKeyValue.value

def addAll (table : DocTable) (names : List Bytes) : Run DocTable :=
  names.foldlM (fun table name => do
    let (table, _) ← table.add name
    return table) table

def build (names : List Bytes) : Run DocTable := do
  let table ← allocate
  table.addAll names

def idAt (i : Nat) : UInt64 := UInt64.ofNat (i + 1)

theorem idAt_inj {i j : Nat} (hi : i ≤ INT_MAX) (hj : j ≤ INT_MAX) (h : idAt i = idAt j) : i = j := by
  have hn := congrArg UInt64.toNat h
  unfold INT_MAX at hi hj
  simp only [idAt, UInt64.toNat_ofNat', Nat.reducePow] at hn
  omega

theorem idAt_ne_zero {i : Nat} (hi : i ≤ INT_MAX) : idAt i ≠ INVALID_DOCID := by
  intro h
  have hn := congrArg UInt64.toNat h
  unfold INT_MAX at hi
  simp only [idAt, INVALID_DOCID, UInt64.toNat_ofNat', Nat.reducePow, UInt64.toNat_zero] at hn
  omega

/-- The table holds the names, in the order of their IDs. -/
structure Registers (table : DocTable) (names : List Bytes) : Prop where
  ids : Grown 2 table.idToName
  hashes : Grown 2 table.nameToId
  numIds : table.idToName.numElements = names.length
  numHashes : table.nameToId.numElements = names.length
  maxId : table.maxId = idAt names.length
  idToName : ∀ docId name, table.idToName.lookup docId = some name ↔
    ∃ i, names[i]? = some name ∧ docId = idAt i
  nameToId : ∀ key docId, table.nameToId.lookup key = some docId ↔
    ∃ i name, names[i]? = some name ∧ hashString name = key ∧ docId = idAt i

theorem allocate_registers : ∃ table, allocate = .ok table ∧ Registers table [] := by
  obtain ⟨idToName, hid, hidZero, hids⟩ :=
    allocate_grown (V := Bytes) (n := HASHTABLE_INITIAL_NUM_BUCKETS) (by decide) (by decide)
  obtain ⟨nameToId, hname, hnameZero, hhashes⟩ :=
    allocate_grown (V := UInt64) (n := HASHTABLE_INITIAL_NUM_BUCKETS) (by decide) (by decide)
  refine ⟨⟨idToName, nameToId, 1⟩, by simp [allocate, hid, hname], hids, hhashes, hidZero, hnameZero, rfl, ?_, ?_⟩
  · simp [lookup_of_numElements_zero hidZero]
  · simp [lookup_of_numElements_zero hnameZero]

section

variable {table table' : DocTable} {names : List Bytes} {name : Bytes} {docId : UInt64}

theorem Registers.length_le (h : Registers table names) : names.length ≤ INT_MAX := by
  have hle := le_bucketsFor h.ids.start table.idToName.numElements
  have hfit := h.ids.fits
  rw [← h.numIds]
  omega

theorem Registers.fresh (h : Registers table names) : table.idToName.lookup table.maxId = none := by
  apply Option.eq_none_iff_forall_ne_some.mpr
  intro name hl
  obtain ⟨i, hi, he⟩ := (h.idToName _ _).mp hl
  have hlt : i < names.length := (List.getElem?_eq_some_iff.mp hi).1
  have hle := h.length_le
  rw [h.maxId] at he
  have := idAt_inj hle (by omega) he
  omega

theorem Registers.lookup_hash (h : Registers table names) :
    table.nameToId.lookup (hashString name) = none ↔ ∀ n ∈ names, hashString n ≠ hashString name := by
  constructor
  · intro hnone n hn he
    obtain ⟨i, hi⟩ := List.getElem?_of_mem hn
    rw [(h.nameToId _ _).mpr ⟨i, n, hi, he, rfl⟩] at hnone
    cases hnone
  · intro hall
    apply Option.eq_none_iff_forall_ne_some.mpr
    intro docId hl
    obtain ⟨i, n, hi, he, _⟩ := (h.nameToId _ _).mp hl
    exact hall n (List.mem_of_getElem? hi) he

/-- A name has one ID. -/
theorem Registers.name_inj (h : Registers table names) {docId docId' : UInt64}
    (hname : table.idToName.lookup docId = some name) (hname' : table.idToName.lookup docId' = some name) :
    docId = docId' := by
  obtain ⟨i, hi, rfl⟩ := (h.idToName _ _).mp hname
  obtain ⟨j, hj, rfl⟩ := (h.idToName _ _).mp hname'
  have hid := (h.nameToId (hashString name) _).mpr ⟨i, name, hi, rfl, rfl⟩
  rw [(h.nameToId (hashString name) _).mpr ⟨j, name, hj, rfl, rfl⟩] at hid
  exact (Option.some.inj hid).symm

theorem getElem?_concat_iff {i : Nat} {n : Bytes} :
    (names ++ [name])[i]? = some n ↔ names[i]? = some n ∨ (i = names.length ∧ n = name) := by
  rw [List.getElem?_append]
  by_cases hi : i < names.length
  · rw [if_pos hi]
    constructor
    · exact Or.inl
    · rintro (h | ⟨rfl, _⟩)
      · exact h
      · omega
  · have hnone : names[i]? = none := List.getElem?_eq_none (by omega)
    rw [if_neg hi, hnone, List.getElem?_singleton]
    by_cases hz : i - names.length = 0
    · have : i = names.length := by omega
      simp [this, eq_comm]
    · have : i ≠ names.length := by omega
      simp [hz, this]

theorem Registers.extend {idToName : HashTable Bytes} {nameToId : HashTable UInt64} (h : Registers table names)
    (hnew : table.nameToId.lookup (hashString name) = none)
    (hid : Added 2 table.idToName ⟨table.maxId, name⟩ idToName)
    (hname : Added 2 table.nameToId ⟨hashString name, table.maxId⟩ nameToId) :
    Registers ⟨idToName, nameToId, table.maxId + 1⟩ (names ++ [name]) where
  ids := hid.grown
  hashes := hname.grown
  numIds := by simp [hid.count, h.numIds]
  numHashes := by simp [hname.count, h.numHashes]
  maxId := by
    rw [h.maxId, List.length_append]
    simp [idAt]
  idToName := by
    intro docId n
    rw [hid.lookup]
    simp only [getElem?_concat_iff]
    split
    · next hk =>
      subst hk
      constructor
      · intro he
        exact ⟨names.length, .inr ⟨rfl, (Option.some.inj he).symm⟩, h.maxId⟩
      · rintro ⟨i, hi | ⟨_, rfl⟩, he⟩
        · have hold := (h.idToName _ _).mpr ⟨i, hi, he⟩
          rw [h.fresh] at hold
          cases hold
        · rfl
    · next hk =>
      rw [h.idToName]
      constructor
      · rintro ⟨i, hi, he⟩
        exact ⟨i, .inl hi, he⟩
      · rintro ⟨i, hi | ⟨rfl, _⟩, he⟩
        · exact ⟨i, hi, he⟩
        · exact absurd (he.trans h.maxId.symm) hk
  nameToId := by
    intro key docId
    rw [hname.lookup]
    simp only [getElem?_concat_iff]
    split
    · next hk =>
      subst hk
      constructor
      · intro he
        exact ⟨names.length, name, .inr ⟨rfl, rfl⟩, rfl, by rw [← Option.some.inj he, h.maxId]⟩
      · rintro ⟨i, n, hi | ⟨rfl, rfl⟩, hhash, he⟩
        · exact absurd hhash (h.lookup_hash.mp hnew n (List.mem_of_getElem? hi))
        · rw [he, h.maxId]
    · next hk =>
      rw [h.nameToId]
      constructor
      · rintro ⟨i, n, hi, hrest⟩
        exact ⟨i, n, .inl hi, hrest⟩
      · rintro ⟨i, n, hi | ⟨rfl, rfl⟩, hhash, he⟩
        · exact ⟨i, n, hi, hhash, he⟩
        · exact absurd hhash.symm hk

/-- A name whose hash is taken gets the ID found there, and any other the
next ID. -/
theorem add_ok (h : Registers table names) (hadd : table.add name = .ok (table', docId)) :
    (table' = table ∧ table.nameToId.lookup (hashString name) = some docId) ∨
      (table.nameToId.lookup (hashString name) = none ∧ docId = idAt names.length ∧
        Registers table' (names ++ [name])) := by
  simp only [add, find_eq, Run.ok_bind] at hadd
  cases hl : table.nameToId.lookup (hashString name) with
  | some d =>
      obtain ⟨rfl, rfl⟩ : table = table' ∧ d = docId := by simpa [hl] using hadd
      exact .inl ⟨rfl, rfl⟩
  | none =>
      simp only [hl, Option.map_none] at hadd
      obtain ⟨⟨idToName, old⟩, hid, hadd⟩ := Run.bind_eq_ok.mp hadd
      obtain ⟨⟨nameToId, old'⟩, hname, hadd⟩ := Run.bind_eq_ok.mp hadd
      obtain ⟨rfl, rfl⟩ : (⟨idToName, nameToId, table.maxId + 1⟩ : DocTable) = table' ∧ table.maxId = docId := by
        simpa using hadd
      refine .inr ⟨rfl, h.maxId, ?_⟩
      exact h.extend hl (insert_new_ok h.ids h.fresh hid) (insert_new_ok h.hashes hl hname)

theorem addAll_registers (h : Registers table names) {more : List Bytes} (hadd : table.addAll more = .ok table') :
    ∃ new, Registers table' (names ++ new) ∧ new.Sublist more := by
  induction more generalizing table names with
  | nil =>
      obtain rfl : table = table' := by simpa [addAll] using hadd
      exact ⟨[], by simpa using h, .refl _⟩
  | cons name more ih =>
      simp only [addAll, List.foldlM_cons] at hadd
      obtain ⟨table₁, hone, hrest⟩ := Run.bind_eq_ok.mp hadd
      obtain ⟨⟨table₂, docId⟩, hname, hret⟩ := Run.bind_eq_ok.mp hone
      obtain rfl : table₂ = table₁ := by simpa using hret
      rcases add_ok h hname with ⟨rfl, _⟩ | ⟨_, _, h'⟩
      · obtain ⟨new, hnew, hsub⟩ := ih h hrest
        exact ⟨new, hnew, hsub.cons name⟩
      · obtain ⟨new, hnew, hsub⟩ := ih h' hrest
        exact ⟨name :: new, by simpa using hnew, hsub.cons_cons name⟩

theorem build_registers {more : List Bytes} (hbuild : build more = .ok table) :
    ∃ names, Registers table names ∧ names.Sublist more := by
  obtain ⟨table₀, halloc, hadd⟩ := Run.bind_eq_ok.mp hbuild
  obtain ⟨table₁, halloc', h⟩ := allocate_registers
  obtain rfl : table₁ = table₀ := by
    rw [halloc'] at halloc
    exact Except.ok.inj halloc
  simpa using addAll_registers h hadd

theorem add_new (h : Registers table names) (hnew : ∀ n ∈ names, hashString n ≠ hashString name)
    (hfit : 3 * bucketsFor 2 (names.length + 1) ≤ INT_MAX) :
    ∃ table', table.add name = .ok (table', idAt names.length) := by
  have hl := h.lookup_hash.mpr hnew
  obtain ⟨idToName, hid, _⟩ := insert_new ⟨table.maxId, name⟩ h.ids h.fresh (by rw [h.numIds]; exact hfit)
  obtain ⟨nameToId, hname, _⟩ := insert_new ⟨hashString name, table.maxId⟩ h.hashes hl
    (by rw [h.numHashes]; exact hfit)
  refine ⟨⟨idToName, nameToId, table.maxId + 1⟩, ?_⟩
  simp only [← h.maxId, add, find_eq, hl, Option.map_none, Run.ok_bind, hid, hname, Run.pure_eq_ok]

theorem lookup_of_getDocName (h : table.getDocName docId = .ok (some name)) :
    table.idToName.lookup docId = some name := by
  obtain ⟨_, _, h⟩ := Run.bind_eq_ok.mp h
  simpa [find_eq, Option.map_map, Function.comp_def] using h

theorem getDocName_eq (h : Registers table names) :
    table.getDocName docId = .ok (some name) ↔ ∃ i, names[i]? = some name ∧ docId = idAt i := by
  rw [← h.idToName]
  simp only [getDocName, find_eq, Run.ok_bind]
  by_cases hz : docId = INVALID_DOCID
  · have hnone : table.idToName.lookup docId ≠ some name := by
      intro hl
      obtain ⟨i, hi, he⟩ := (h.idToName _ _).mp hl
      have hlt : i < names.length := (List.getElem?_eq_some_iff.mp hi).1
      have hle := h.length_le
      exact idAt_ne_zero (by omega) (he ▸ hz)
    simp [hz] at hnone ⊢
    exact hnone
  · simp [hz, Option.map_map, Function.comp_def]

theorem getDocID_eq (h : Registers table names) {i : Nat} (hi : names[i]? = some name) :
    table.getDocID name = .ok (idAt i) := by
  have hl := (h.nameToId (hashString name) (idAt i)).mpr ⟨i, name, hi, rfl, rfl⟩
  simp [getDocID, hl]

end

end DocTable

end SearchEngine
