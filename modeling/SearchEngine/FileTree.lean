import SearchEngine.Run
import Mathlib.Data.List.Nodup

namespace SearchEngine

/-- What readdir returns for a directory, entry by entry: the directory itself
and its parent, regular files, and subdirectories. -/
inductive Dir
  | nil
  | dots (rest : Dir)
  | file (name contents : Bytes) (rest : Dir)
  | sub (name : Bytes) (dir rest : Dir)

structure File where
  path : Bytes
  contents : Bytes

namespace Dir

/-- The path of a directory entry: a slash is added unless the directory's own
path ends with one. -/
def pathName (dirPath name : Bytes) : Bytes :=
  if dirPath.getLast? = some 47 then dirPath ++ name else dirPath ++ 47 :: name

def names : Dir → List Bytes
  | nil => []
  | dots rest => rest.names
  | file name _ rest => name :: rest.names
  | sub name _ rest => name :: rest.names

def files (dirPath : Bytes) : Dir → List File
  | nil => []
  | dots rest => rest.files dirPath
  | file name contents rest => ⟨pathName dirPath name, contents⟩ :: rest.files dirPath
  | sub name dir rest => dir.files (pathName dirPath name) ++ rest.files dirPath

def depth : Dir → Nat
  | nil => 0
  | dots rest => rest.depth
  | file _ _ rest => rest.depth
  | sub _ dir rest => max (dir.depth + 1) rest.depth

def isDots (name : Bytes) : Bool := name = [46] || name = [46, 46]

structure ProperName (name : Bytes) : Prop where
  nonempty : name ≠ []
  noSlash : 47 ∉ name
  notDots : isDots name = false

structure Level (numEntries : Nat) (d : Dir) : Prop where
  proper : ∀ name ∈ d.names, ProperName name
  distinct : d.names.Nodup
  small : d.names.length ≤ numEntries

def EverySub (p : Dir → Prop) : Dir → Prop
  | nil => True
  | dots rest => rest.EverySub p
  | file _ _ rest => rest.EverySub p
  | sub _ dir rest => p dir ∧ dir.EverySub p ∧ rest.EverySub p

/-- A directory tree with at most so many entries in each directory. -/
def Valid (numEntries : Nat) (d : Dir) : Prop := d.Level numEntries ∧ d.EverySub (Level numEntries)

instance (name : Bytes) : Decidable (ProperName name) :=
  decidable_of_iff (name ≠ [] ∧ 47 ∉ name ∧ isDots name = false)
    ⟨fun ⟨h₁, h₂, h₃⟩ => ⟨h₁, h₂, h₃⟩, fun h => ⟨h.nonempty, h.noSlash, h.notDots⟩⟩

instance (n : Nat) (d : Dir) : Decidable (Level n d) :=
  decidable_of_iff ((∀ name ∈ d.names, ProperName name) ∧ d.names.Nodup ∧ d.names.length ≤ n)
    ⟨fun ⟨h₁, h₂, h₃⟩ => ⟨h₁, h₂, h₃⟩, fun h => ⟨h.proper, h.distinct, h.small⟩⟩

instance decidableEverySub (p : Dir → Prop) [DecidablePred p] : (d : Dir) → Decidable (d.EverySub p)
  | nil => .isTrue trivial
  | dots rest => decidableEverySub p rest
  | file _ _ rest => decidableEverySub p rest
  | sub _ dir rest =>
      have := decidableEverySub p dir
      have := decidableEverySub p rest
      inferInstanceAs (Decidable (p dir ∧ dir.EverySub p ∧ rest.EverySub p))

instance (n : Nat) (d : Dir) : Decidable (Valid n d) :=
  inferInstanceAs (Decidable (d.Level n ∧ d.EverySub (Level n)))

inductive Target
  | file (contents : Bytes)
  | dir (d : Dir)

def entries : Dir → List (Bytes × Target)
  | nil => []
  | dots rest => rest.entries
  | file name contents rest => (name, .file contents) :: rest.entries
  | sub name dir rest => (name, .dir dir) :: rest.entries

def Target.files (path : Bytes) : Target → List File
  | .file contents => [⟨path, contents⟩]
  | .dir d => d.files path

theorem names_eq (d : Dir) : d.names = d.entries.map Prod.fst := by
  induction d with
  | nil => rfl
  | dots rest ih => exact ih
  | file name contents rest ih => simp [names, entries, ih]
  | sub name dir rest _ ih => simp [names, entries, ih]

theorem files_eq (dirPath : Bytes) (d : Dir) :
    d.files dirPath = d.entries.flatMap fun e => e.2.files (pathName dirPath e.1) := by
  induction d with
  | nil => rfl
  | dots rest ih => exact ih
  | file name contents rest ih => simp [files, entries, Target.files, ih]
  | sub name dir rest _ ih => simp [files, entries, Target.files, ih]

theorem depth_of_mem {d dir : Dir} {name : Bytes} (h : (name, Target.dir dir) ∈ d.entries) :
    dir.depth < d.depth := by
  induction d with
  | nil => simp [entries] at h
  | dots rest ih => exact ih h
  | file n contents rest ih =>
      simp only [entries, List.mem_cons, Prod.mk.injEq, reduceCtorEq, and_false, false_or] at h
      exact ih h
  | sub n sub rest _ ih =>
      simp only [entries, List.mem_cons, Prod.mk.injEq, Target.dir.injEq] at h
      simp only [depth]
      rcases h with ⟨_, rfl⟩ | h
      · omega
      · have := ih h
        omega

theorem everySub_of_mem {p : Dir → Prop} {d dir : Dir} {name : Bytes} (hd : d.EverySub p)
    (h : (name, Target.dir dir) ∈ d.entries) : p dir ∧ dir.EverySub p := by
  induction d with
  | nil => simp [entries] at h
  | dots rest ih => exact ih hd h
  | file n contents rest ih =>
      simp only [entries, List.mem_cons, Prod.mk.injEq, reduceCtorEq, and_false, false_or] at h
      exact ih hd h
  | sub n sub rest _ ih =>
      simp only [entries, List.mem_cons, Prod.mk.injEq, Target.dir.injEq] at h
      obtain ⟨hp, hsub, hrest⟩ := hd
      rcases h with ⟨_, rfl⟩ | h
      · exact ⟨hp, hsub⟩
      · exact ih hrest h

theorem Valid.sub {n : Nat} {d dir : Dir} {name : Bytes} (hd : d.Valid n)
    (h : (name, Target.dir dir) ∈ d.entries) : dir.Valid n :=
  everySub_of_mem hd.2 h

theorem pathName_cases (dirPath : Bytes) :
    (∀ name, pathName dirPath name = dirPath ++ name) ∨ ∀ name, pathName dirPath name = dirPath ++ 47 :: name := by
  by_cases h : dirPath.getLast? = some 47
  · exact .inl fun name => by rw [pathName, if_pos h]
  · exact .inr fun name => by rw [pathName, if_neg h]

theorem pathName_eq (dirPath : Bytes) : ∃ base, ∀ name, pathName dirPath name = base ++ name := by
  rcases pathName_cases dirPath with h | h
  · exact ⟨dirPath, h⟩
  · exact ⟨dirPath ++ [47], fun name => by rw [h]; simp⟩

def Ends (rest : Bytes) : Prop := rest = [] ∨ ∃ tail, rest = 47 :: tail

/-- A path determines the name at which a slash or its end comes first. -/
theorem name_inj {a b r s : Bytes} (ha : 47 ∉ a) (hb : 47 ∉ b) (hr : Ends r) (hs : Ends s)
    (h : a ++ r = b ++ s) : a = b := by
  induction a generalizing b with
  | nil =>
      cases b with
      | nil => rfl
      | cons c b =>
          rcases hr with rfl | ⟨tail, rfl⟩
          · simp at h
          · simp only [List.nil_append, List.cons_append, List.cons.injEq] at h
            exact absurd (by simp [h.1]) hb
  | cons c a ih =>
      cases b with
      | nil =>
          rcases hs with rfl | ⟨tail, rfl⟩
          · simp at h
          · simp only [List.nil_append, List.cons_append, List.cons.injEq] at h
            exact absurd (by simp [h.1]) ha
      | cons c' b =>
          simp only [List.cons_append, List.cons.injEq] at h
          simp only [List.mem_cons, not_or] at ha hb
          rw [h.1, ih ha.2 hb.2 h.2]

theorem getLast?_pathName {dirPath name : Bytes} (h : ProperName name) :
    (pathName dirPath name).getLast? ≠ some 47 := by
  obtain ⟨base, hbase⟩ := pathName_eq dirPath
  rw [hbase, List.getLast?_append_of_ne_nil _ h.nonempty]
  intro hl
  exact h.noSlash (List.mem_of_getLast? hl)

theorem path_of_mem {dirPath : Bytes} {d : Dir} {f : File} (hf : f ∈ d.files dirPath) :
    ∃ name rest, f.path = pathName dirPath name ++ rest := by
  induction d generalizing dirPath with
  | nil => simp [files] at hf
  | dots rest ih => exact ih hf
  | file name contents rest ih =>
      rcases List.mem_cons.mp hf with rfl | hf
      · exact ⟨name, [], by simp⟩
      · exact ih hf
  | sub name dir rest ihDir ih =>
      rcases List.mem_append.mp hf with hf | hf
      · obtain ⟨name', tail, he⟩ := ihDir hf
        rcases pathName_cases (pathName dirPath name) with hp | hp
        · exact ⟨name, name' ++ tail, by rw [he, hp, List.append_assoc]⟩
        · exact ⟨name, 47 :: (name' ++ tail), by rw [he, hp]; simp⟩
      · exact ih hf

theorem Target.path_of_mem {dirPath name : Bytes} {t : Target} {f : File} (hname : ProperName name)
    (hf : f ∈ t.files (pathName dirPath name)) :
    ∃ rest, f.path = pathName dirPath name ++ rest ∧ Ends rest := by
  cases t with
  | file contents =>
      obtain rfl : f = ⟨pathName dirPath name, contents⟩ := by simpa [Target.files] using hf
      exact ⟨[], by simp, .inl rfl⟩
  | dir d =>
      obtain ⟨name', rest, he⟩ := Dir.path_of_mem hf
      refine ⟨47 :: (name' ++ rest), ?_, .inr ⟨_, rfl⟩⟩
      rw [he]
      conv_lhs => rw [pathName, if_neg (getLast?_pathName hname)]
      simp

theorem nodup_paths {numEntries : Nat} (d : Dir) (dirPath : Bytes) (hd : d.Valid numEntries) :
    ((d.files dirPath).map File.path).Nodup := by
  induction hn : d.depth using Nat.strongRecOn generalizing d dirPath with
  | _ n ih =>
    rw [files_eq, List.map_flatMap, List.nodup_flatMap]
    constructor
    · rintro ⟨name, t⟩ he
      cases t with
      | file contents => simp [Target.files]
      | dir sub =>
          have hlt := depth_of_mem he
          exact ih sub.depth (by omega) sub _ (hd.sub he) rfl
    · have hdistinct := hd.1.distinct
      rw [names_eq, List.Nodup, List.pairwise_map] at hdistinct
      refine hdistinct.imp_of_mem ?_
      rintro ⟨a, t⟩ ⟨b, u⟩ ha hb hne path hpa hpb
      have hproper (name : Bytes) (t : Target) (h : (name, t) ∈ d.entries) : ProperName name :=
        hd.1.proper name (by rw [names_eq]; exact List.mem_map_of_mem (f := Prod.fst) h)
      obtain ⟨f, hf, rfl⟩ := List.mem_map.mp hpa
      obtain ⟨g, hg, hpath⟩ := List.mem_map.mp hpb
      obtain ⟨r, hr, hends⟩ := Target.path_of_mem (hproper a t ha) hf
      obtain ⟨s, hs, hends'⟩ := Target.path_of_mem (hproper b u hb) hg
      obtain ⟨base, hbase⟩ := pathName_eq dirPath
      rw [hr, hs, hbase, hbase, List.append_assoc, List.append_assoc] at hpath
      exact hne (name_inj (hproper a t ha).noSlash (hproper b u hb).noSlash hends hends'
        (List.append_cancel_left hpath).symm)

end Dir

end SearchEngine
