import SearchEngine.FileTree
import SearchEngine.RoFileRefinement
import Mathlib.Data.List.ReduceOption
import Mathlib.Data.List.Infix

/-! The program that prints the text files of a directory. -/

namespace SearchEngine.TextFiles

open RoFile

def EXIT_SUCCESS : Int := 0

def EXIT_FAILURE : Int := 1

/-- What readdir returns of an entry, and whether its type is DT_REG. -/
structure DirEntry where
  name : Bytes
  isReg : Bool

def PATH_MAX : Nat := 4096

def NAME_MAX : Nat := 255

/-- A directory that opendir has opened: the path was one that the system
takes, and so are the names in it. -/
structure OpenedDir where
  dirname : Bytes
  entries : List DirEntry
  nonempty : dirname ≠ []
  dirname_lt : dirname.length < PATH_MAX
  names_le : ∀ e ∈ entries, e.name.length ≤ NAME_MAX

/-- The string from the last occurrence of the character on. -/
def strrchr : Bytes → UInt8 → Option Bytes
  | [], _ => none
  | b :: bs, c =>
      match strrchr bs c with
      | some s => some s
      | none => if b = c then some (b :: bs) else none

def dotTxt : Bytes := ascii ['.', 't', 'x', 't']

def isTxtFile (filename : Bytes) : Bool :=
  match strrchr filename 46 with
  | none => false
  | some dot => dot = dotTxt

/-- The result is none where malloc fails and the program exits. -/
def concatenate (dirname filename : Bytes) : Run (Option Bytes) := do
  match dirname.getLast? with
  | none => .error .badAccess
  | some last =>
      let hasTrailingSlash := last = 47
      let dlen := dirname.length
      let flen := filename.length
      let sizeToMalloc := toInt (if hasTrailingSlash then dlen + flen + 1 else dlen + flen + 2)
      if sizeToMalloc < 0 then return none
      else if sizeToMalloc = 0 then .error .badAccess
      else
        let path := if hasTrailingSlash then dirname ++ filename else dirname ++ 47 :: filename
        return some (path.take (sizeToMalloc.toNat - 1))

/-- The size of the pointer that the program passes for the size of the buffer. -/
def bufSize : Nat := 8

/-- The while loop over one file, with what it writes to stdout. Its reads do not
fail: for one that did, main would print a line to stdout and return 1. -/
def copyLoop (f : OpenedFile) : Nat → RoFile → Run Bytes
  | 0, _ => .error .outOfFuel
  | fuel + 1, file => do
      let (file, buf) ← roRead f file bufSize
      if 0 < buf.length then
        let rest ← copyLoop f fuel file
        return buf ++ rest
      else return []

variable (openFile : Bytes → Option OpenedFile)

/-- The files that have been read are never closed: each takes one of the
descriptors that are free. -/
def readLoop (dirname : Bytes) : Nat → List DirEntry → Run (Bytes × Int)
  | _, [] => return ([], EXIT_SUCCESS)
  | free, ent :: ents => do
      if ent.isReg && isTxtFile ent.name then
        match ← concatenate dirname ent.name with
        | none => return ([], EXIT_FAILURE)
        | some path =>
            match free, openFile path with
            | free + 1, some f =>
                let out ← copyLoop f (f.contents.length + 1) roOpen
                let (rest, status) ← readLoop dirname free ents
                return (out ++ rest, status)
            | _, _ => return ([], EXIT_FAILURE)
      else readLoop dirname free ents

/-- What main writes to stdout and returns, with so many descriptors free when
the directory is open. -/
def main (free : Nat) (dir : Option OpenedDir) : Run (Bytes × Int) :=
  match dir with
  | none => return ([], EXIT_FAILURE)
  | some d => readLoop openFile d.dirname free d.entries

theorem strrchr_eq_none {s : Bytes} {c : UInt8} : strrchr s c = none ↔ c ∉ s := by
  induction s with
  | nil => simp [strrchr]
  | cons b bs ih =>
      simp only [strrchr, List.mem_cons, not_or]
      cases hs : strrchr bs c with
      | some s =>
          have hmem : c ∈ bs := by
            by_contra hnot
            rw [ih.mpr hnot] at hs
            cases hs
          simp [hmem]
      | none =>
          have hnot := ih.mp hs
          by_cases hb : b = c
          · simp [hb]
          · simp [hb, hnot, Ne.symm hb]

theorem strrchr_last (before : Bytes) {after : Bytes} {c : UInt8} (h : c ∉ after) :
    strrchr (before ++ c :: after) c = some (c :: after) := by
  induction before with
  | nil => simp [strrchr, strrchr_eq_none.mpr h]
  | cons b bs ih => simp only [List.cons_append, strrchr, ih]

theorem strrchr_suffix {s t : Bytes} {c : UInt8} (h : strrchr s c = some t) : t <:+ s := by
  induction s with
  | nil => cases h
  | cons b bs ih =>
      simp only [strrchr] at h
      cases hs : strrchr bs c with
      | some u =>
          rw [hs] at h ih
          exact (ih h).trans (List.suffix_cons b bs)
      | none =>
          rw [hs] at h
          dsimp only at h
          split at h
          · obtain rfl := Option.some.inj h
            exact List.suffix_rfl
          · cases h

theorem isTxtFile_iff (filename : Bytes) : isTxtFile filename = true ↔ dotTxt <:+ filename := by
  have hdot : strrchr filename 46 = some dotTxt ↔ dotTxt <:+ filename := by
    constructor
    · exact strrchr_suffix
    · rintro ⟨before, rfl⟩
      exact strrchr_last before (by decide)
  rw [← hdot]
  unfold isTxtFile
  cases strrchr filename 46 with
  | none => simp
  | some dot => simp

theorem concatenate_eq {dirname filename : Bytes} (hne : dirname ≠ []) (hdir : dirname.length < PATH_MAX)
    (hname : filename.length ≤ NAME_MAX) :
    concatenate dirname filename = .ok (some (Dir.pathName dirname filename)) := by
  have hlast : dirname.getLast? = some (dirname.getLast hne) := List.getLast?_eq_some_getLast hne
  unfold PATH_MAX at hdir
  unfold NAME_MAX at hname
  simp only [concatenate, Dir.pathName, hlast, Option.some_inj]
  by_cases hslash : dirname.getLast hne = 47
  · have hsize : toInt (dirname.length + filename.length + 1) = (dirname.length + filename.length + 1 : Nat) :=
      toInt_of_lt (by omega)
    simp only [hslash, if_true, hsize]
    rw [if_neg (by omega), if_neg (by omega), Int.toNat_natCast, Nat.add_sub_cancel, ← List.length_append,
      List.take_length]
    rfl
  · have hsize : toInt (dirname.length + filename.length + 2) = (dirname.length + filename.length + 2 : Nat) :=
      toInt_of_lt (by omega)
    have hlen : dirname.length + filename.length + 1 = (dirname ++ 47 :: filename).length := by
      rw [List.length_append, List.length_cons]
      omega
    simp only [hslash, if_false, hsize]
    rw [if_neg (by omega), if_neg (by omega), Int.toNat_natCast, Nat.add_sub_assoc (by decide), hlen, List.take_length]
    rfl

theorem copyLoop_spec (f : OpenedFile) (fuel pos : Nat) (file : RoFile) (hat : At f file pos)
    (hfuel : f.contents.length - pos < fuel) : copyLoop f fuel file = .ok (f.contents.drop pos) := by
  induction fuel generalizing pos file with
  | zero => omega
  | succ fuel ih =>
      have hfits : Fits bufSize (f.contents.length - pos) := .inl (by decide)
      obtain ⟨file', hread, hat'⟩ := roRead_spec hat hfits
      unfold copyLoop
      rw [hread, Run.ok_bind]
      dsimp only
      have hlen : ((f.contents.drop pos).take bufSize).length = min bufSize (f.contents.length - pos) := by
        rw [List.length_take, List.length_drop]
      by_cases hend : f.contents.length ≤ pos
      · rw [if_neg (by omega), List.drop_eq_nil_of_le hend]
        rfl
      · have hpos : 0 < min bufSize (f.contents.length - pos) := by
          unfold bufSize
          omega
        have hrest : f.contents.drop (pos + min bufSize (f.contents.length - pos)) =
            (f.contents.drop pos).drop bufSize := by
          rw [List.drop_drop]
          rcases Nat.le_total bufSize (f.contents.length - pos) with hle | hle
          · rw [Nat.min_eq_left hle]
          · rw [Nat.min_eq_right hle, List.drop_eq_nil_of_le (by omega), List.drop_eq_nil_of_le (by omega)]
        rw [if_pos (by omega), ih _ file' hat' (by omega), Run.ok_bind, hlen, hrest]
        exact congrArg Except.ok (List.take_append_drop bufSize _)

def texts (entries : List DirEntry) : List DirEntry :=
  entries.filter fun e => e.isReg && decide (dotTxt <:+ e.name)

/-- Of what opening one file after the other gives: those before the first
failure, and no more than there are descriptors. -/
def front (free : Nat) (files : List (Option OpenedFile)) : List OpenedFile :=
  ((files.take free).takeWhile Option.isSome).reduceOption

section Front

variable {free : Nat} {f : OpenedFile} {files : List (Option OpenedFile)}

theorem front_zero : front 0 files = [] := rfl

theorem front_none : front free (none :: files) = [] := by
  cases free <;> rfl

theorem front_some : front (free + 1) (some f :: files) = f :: front free files := rfl

theorem front_all : (front free files).length = files.length ↔ files.length ≤ free ∧ ∀ r ∈ files, r.isSome := by
  induction files generalizing free with
  | nil => cases free <;> simp [front]
  | cons r files ih =>
      cases r with
      | none => simp [front_none]
      | some f =>
          cases free with
          | zero => simp [front_zero]
          | succ free =>
              rw [front_some, List.length_cons, List.length_cons, Nat.add_right_cancel_iff, ih]
              simp

end Front

/-- What opening the text files of a directory gives. -/
def attempts (dirname : Bytes) (entries : List DirEntry) : List (Option OpenedFile) :=
  (texts entries).map fun e => openFile (Dir.pathName dirname e.name)

theorem readLoop_spec {dirname : Bytes} (hne : dirname ≠ []) (hdir : dirname.length < PATH_MAX)
    (entries : List DirEntry) (hnames : ∀ e ∈ entries, e.name.length ≤ NAME_MAX) (free : Nat) :
    readLoop openFile dirname free entries =
      .ok ((front free (attempts openFile dirname entries)).flatMap OpenedFile.contents,
        if (front free (attempts openFile dirname entries)).length = (attempts openFile dirname entries).length
          then EXIT_SUCCESS else EXIT_FAILURE) := by
  induction entries generalizing free with
  | nil => cases free <;> rfl
  | cons ent ents ih =>
      obtain ⟨hname, hnames⟩ := List.forall_mem_cons.mp hnames
      have htxt : isTxtFile ent.name = decide (dotTxt <:+ ent.name) := by
        rw [Bool.eq_iff_iff, isTxtFile_iff, decide_eq_true_iff]
      unfold readLoop attempts texts
      rw [htxt, List.filter_cons]
      by_cases hreg : (ent.isReg && decide (dotTxt <:+ ent.name)) = true
      · rw [if_pos hreg, if_pos hreg, List.map_cons, concatenate_eq hne hdir hname]
        simp only [Run.ok_bind]
        cases hopen : openFile (Dir.pathName dirname ent.name) with
        | none =>
            rw [front_none]
            cases free <;> rfl
        | some f =>
            cases free with
            | zero => rfl
            | succ free =>
                have hcopy := copyLoop_spec f (f.contents.length + 1) 0 roOpen (roOpen_at f) (by omega)
                simp only [hcopy, Run.ok_bind, ih hnames, front_some, List.drop_zero, List.flatMap_cons,
                  List.length_cons, Nat.add_right_cancel_iff]
                rfl
      · rw [if_neg hreg, if_neg hreg]
        exact ih hnames free

/-- The program prints the text files in the order of the directory, and goes
on to the end exactly if it can open each and there is a descriptor for each:
it closes none. -/
theorem main_output (free : Nat) (d : OpenedDir) :
    main openFile free (some d) =
      .ok ((front free (attempts openFile d.dirname d.entries)).flatMap OpenedFile.contents,
        if (texts d.entries).length ≤ free ∧
            ∀ e ∈ texts d.entries, (openFile (Dir.pathName d.dirname e.name)).isSome
          then EXIT_SUCCESS else EXIT_FAILURE) := by
  have hloop := readLoop_spec openFile d.nonempty d.dirname_lt d.entries d.names_le free
  have hall : (front free (attempts openFile d.dirname d.entries)).length =
      (attempts openFile d.dirname d.entries).length ↔ (texts d.entries).length ≤ free ∧
        ∀ e ∈ texts d.entries, (openFile (Dir.pathName d.dirname e.name)).isSome := by
    rw [front_all]
    simp [attempts]
  simp only [hall] at hloop
  exact hloop

end SearchEngine.TextFiles
