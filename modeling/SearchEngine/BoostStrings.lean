import SearchEngine.Run
import Mathlib.Data.List.TakeWhile

/-! The string algorithms of Boost that the server and the shell call. -/

namespace SearchEngine.Boost

/-- A run of delimiters counts as one with token_compress_on. -/
def compress (isDelim : UInt8 → Bool) : Bytes → Bytes
  | a :: b :: s => if isDelim a && isDelim b then compress isDelim (b :: s) else a :: compress isDelim (b :: s)
  | s => s

def split (isDelim : UInt8 → Bool) : Bytes → List Bytes
  | [] => [[]]
  | a :: s =>
      if isDelim a then [] :: split isDelim s
      else
        match split isDelim s with
        | [] => [[a]]
        | token :: tokens => (a :: token) :: tokens

theorem split_ne_nil (isDelim : UInt8 → Bool) (s : Bytes) : split isDelim s ≠ [] := by
  induction s with
  | nil => simp [split]
  | cons b s ih =>
      rw [split]
      split
      · simp
      · split <;> simp

theorem split_clear {isDelim : UInt8 → Bool} {s : Bytes} (h : ∀ b ∈ s, isDelim b = false) : split isDelim s = [s] := by
  induction s with
  | nil => rfl
  | cons b s ih =>
      rw [split, h b List.mem_cons_self, ih fun c hc => h c (List.mem_cons_of_mem b hc)]
      rfl

theorem split_token {isDelim : UInt8 → Bool} {token : Bytes} (h : ∀ b ∈ token, isDelim b = false) {d : UInt8}
    (hd : isDelim d = true) (s : Bytes) : split isDelim (token ++ d :: s) = token :: split isDelim s := by
  induction token with
  | nil =>
      rw [List.nil_append, split, hd]
      rfl
  | cons b token ih =>
      rw [List.cons_append, split, h b List.mem_cons_self, ih fun c hc => h c (List.mem_cons_of_mem b hc)]
      rfl

def isSpace (b : UInt8) : Bool := b == 32 || (9 ≤ b && b ≤ 13)

def trimLeft (s : Bytes) : Bytes := s.dropWhile isSpace

def trimRight (s : Bytes) : Bytes := (s.reverse.dropWhile isSpace).reverse

def toLower (s : Bytes) : Bytes := s.map fun b => if 65 ≤ b && b ≤ 90 then b + 32 else b

def trim (s : Bytes) : Bytes := trimLeft (trimRight s)

variable {isDelim : UInt8 → Bool}

theorem compress_token {token : Bytes} (h : ∀ b ∈ token, isDelim b = false) (s : Bytes) :
    compress isDelim (token ++ s) = token ++ compress isDelim s := by
  induction token with
  | nil => rfl
  | cons b token ih =>
      have hrest := ih fun c hc => h c (List.mem_cons_of_mem b hc)
      rw [List.cons_append, List.cons_append, ← hrest]
      cases hmore : token ++ s with
      | nil => rfl
      | cons c more => simp [compress, h b List.mem_cons_self]

theorem compress_clear {s : Bytes} (h : ∀ b ∈ s, isDelim b = false) : compress isDelim s = s := by
  have htoken := compress_token h []
  rw [List.append_nil] at htoken
  exact htoken.trans (List.append_nil s)

theorem compress_run {d d' : UInt8} (hd : isDelim d = true) (hd' : isDelim d' = true) (s : Bytes) :
    compress isDelim (d :: d' :: s) = compress isDelim (d' :: s) := by
  rw [compress, hd, hd']
  rfl

theorem compress_single {d b : UInt8} (hb : isDelim b = false) (s : Bytes) :
    compress isDelim (d :: b :: s) = d :: compress isDelim (b :: s) := by
  rw [compress, hb, Bool.and_false]
  rfl

/-- A gap of any length ends a token. -/
theorem split_gap {token gap : Bytes} (htoken : ∀ b ∈ token, isDelim b = false) (hgap : ∀ b ∈ gap, isDelim b = true)
    (hne : gap ≠ []) {s : Bytes} (hs : ∀ b ∈ s.head?, isDelim b = false) :
    split isDelim (compress isDelim (token ++ gap ++ s)) = token :: split isDelim (compress isDelim s) := by
  obtain ⟨d, gap, rfl⟩ := List.exists_cons_of_ne_nil hne
  have hd := hgap d List.mem_cons_self
  have hone : ∃ e, isDelim e = true ∧ compress isDelim (d :: (gap ++ s)) = e :: compress isDelim s := by
    clear hne
    induction gap generalizing d with
    | nil =>
        refine ⟨d, hd, ?_⟩
        cases s with
        | nil => rfl
        | cons b s => exact compress_single (hs b rfl) s
    | cons d' gap ih =>
        have hd' := hgap d' (by simp)
        rw [List.cons_append, compress_run hd hd']
        exact ih d' (fun b hb => hgap b (List.mem_cons_of_mem d hb)) hd'
  obtain ⟨e, he, hcompress⟩ := hone
  rw [List.append_assoc, compress_token htoken, List.cons_append, hcompress, split_token htoken he]

theorem trimLeft_gap {gap : Bytes} (hgap : ∀ b ∈ gap, isSpace b = true) {s : Bytes}
    (hs : ∀ b ∈ s.head?, isSpace b = false) : trimLeft (gap ++ s) = s := by
  rw [trimLeft, List.dropWhile_append_of_pos hgap]
  cases s with
  | nil => rfl
  | cons b s => exact List.dropWhile_cons_of_neg (by simp [hs b rfl])

theorem trimRight_gap {gap : Bytes} (hgap : ∀ b ∈ gap, isSpace b = true) {s : Bytes}
    (hs : ∀ b ∈ s.getLast?, isSpace b = false) : trimRight (s ++ gap) = s := by
  have hreverse : trimLeft (gap.reverse ++ s.reverse) = s.reverse := by
    apply trimLeft_gap
    · simpa using hgap
    · simpa using hs
  rw [trimRight, List.reverse_append]
  rw [trimLeft] at hreverse
  rw [hreverse, List.reverse_reverse]

/-- The algorithms as the code can rely on them, with what their documentation
says: a separator ends a token, with token_compress_on a run of separators
does; the white space at an end is removed, up to the first other character;
and each character is turned into lower case on its own. -/
@[ext]
structure StringAlgo where
  split : (UInt8 → Bool) → Bool → Bytes → List Bytes
  trimLeft : Bytes → Bytes
  trimRight : Bytes → Bytes
  trim : Bytes → Bytes
  toLower : Bytes → Bytes
  split_last : ∀ isDelim compressOn s, (∀ b ∈ s, isDelim b = false) → split isDelim compressOn s = [s]
  split_off : ∀ isDelim token d s, (∀ b ∈ token, isDelim b = false) → isDelim d = true →
    split isDelim false (token ++ d :: s) = token :: split isDelim false s
  split_on : ∀ isDelim token gap s, (∀ b ∈ token, isDelim b = false) → (∀ b ∈ gap, isDelim b = true) → gap ≠ [] →
    (∀ b ∈ s.head?, isDelim b = false) → split isDelim true (token ++ gap ++ s) = token :: split isDelim true s
  trimLeft_spec : ∀ s, ∃ gap, s = gap ++ trimLeft s ∧ (∀ b ∈ gap, isSpace b = true) ∧
    ∀ b ∈ (trimLeft s).head?, isSpace b = false
  trimRight_spec : ∀ s, ∃ gap, s = trimRight s ++ gap ∧ (∀ b ∈ gap, isSpace b = true) ∧
    ∀ b ∈ (trimRight s).getLast?, isSpace b = false
  trim_spec : ∀ s, ∃ l r, s = l ++ trim s ++ r ∧ (∀ b ∈ l ++ r, isSpace b = true) ∧
    (∀ b ∈ (trim s).head?, isSpace b = false) ∧ ∀ b ∈ (trim s).getLast?, isSpace b = false
  toLower_spec : ∀ s, toLower s = s.map fun b => if 65 ≤ b && b ≤ 90 then b + 32 else b

namespace StringAlgo

/-- A text without separators, or its first token with what follows. -/
theorem token_cases (isDelim : UInt8 → Bool) (s : Bytes) : (∀ b ∈ s, isDelim b = false) ∨
    ∃ token d rest, s = token ++ d :: rest ∧ (∀ b ∈ token, isDelim b = false) ∧ isDelim d = true := by
  induction s with
  | nil => exact .inl (by simp)
  | cons b s ih =>
      cases hb : isDelim b with
      | true => exact .inr ⟨[], b, s, rfl, by simp, hb⟩
      | false =>
          rcases ih with hclear | ⟨token, d, rest, rfl, htoken, hd⟩
          · exact .inl (List.forall_mem_cons.mpr ⟨hb, hclear⟩)
          · exact .inr ⟨b :: token, d, rest, rfl, List.forall_mem_cons.mpr ⟨hb, htoken⟩, hd⟩

variable (lib : StringAlgo)

theorem split_off_eq (isDelim : UInt8 → Bool) (s : Bytes) : lib.split isDelim false s = Boost.split isDelim s := by
  induction hlen : s.length using Nat.strongRecOn generalizing s with
  | ind n ih =>
      rcases token_cases isDelim s with hclear | ⟨token, d, rest, rfl, htoken, hd⟩
      · rw [lib.split_last isDelim false s hclear, split_clear hclear]
      · rw [List.length_append, List.length_cons] at hlen
        rw [lib.split_off isDelim token d rest htoken hd, split_token htoken hd, ih rest.length (by omega) rest rfl]

theorem split_on_eq (isDelim : UInt8 → Bool) (s : Bytes) :
    lib.split isDelim true s = Boost.split isDelim (compress isDelim s) := by
  induction hlen : s.length using Nat.strongRecOn generalizing s with
  | ind n ih =>
      rcases token_cases isDelim s with hclear | ⟨token, d, rest, rfl, htoken, hd⟩
      · rw [lib.split_last isDelim true s hclear, compress_clear hclear, split_clear hclear]
      · have hgap : ∀ b ∈ d :: rest.takeWhile isDelim, isDelim b = true :=
          List.forall_mem_cons.mpr ⟨hd, fun b hb => List.mem_takeWhile_imp hb⟩
        have hnext : ∀ b ∈ (rest.dropWhile isDelim).head?, isDelim b = false := by
          intro b hb
          have hdrop := List.head?_dropWhile_not isDelim rest
          rw [Option.mem_def.mp hb] at hdrop
          simpa using hdrop
        have hsplit : token ++ d :: rest = token ++ (d :: rest.takeWhile isDelim) ++ rest.dropWhile isDelim := by
          rw [List.append_assoc, List.cons_append, List.takeWhile_append_dropWhile]
        have hle := List.length_dropWhile_le isDelim rest
        rw [List.length_append, List.length_cons] at hlen
        rw [hsplit, lib.split_on isDelim token _ _ htoken hgap (List.cons_ne_nil _ _) hnext,
          split_gap htoken hgap (List.cons_ne_nil _ _) hnext, ih _ (by omega) _ rfl]

theorem trimLeft_eq (s : Bytes) : lib.trimLeft s = Boost.trimLeft s := by
  obtain ⟨gap, hs, hgap, hhead⟩ := lib.trimLeft_spec s
  generalize lib.trimLeft s = t at hs hhead
  rw [hs, trimLeft_gap hgap hhead]

theorem trimRight_eq (s : Bytes) : lib.trimRight s = Boost.trimRight s := by
  obtain ⟨gap, hs, hgap, hlast⟩ := lib.trimRight_spec s
  generalize lib.trimRight s = t at hs hlast
  rw [hs, trimRight_gap hgap hlast]

theorem trim_eq (s : Bytes) : lib.trim s = Boost.trim s := by
  obtain ⟨l, r, hs, hspaces, hhead, hlast⟩ := lib.trim_spec s
  generalize lib.trim s = t at hs hhead hlast
  obtain ⟨hl, hr⟩ := List.forall_mem_append.mp hspaces
  rw [hs, Boost.trim]
  cases t with
  | nil =>
      have hright : Boost.trimRight ([] ++ (l ++ r)) = [] := trimRight_gap hspaces (by simp)
      rw [List.append_nil, ← List.nil_append (l ++ r), hright]
      rfl
  | cons b t =>
      have hlast' : ∀ c ∈ (l ++ b :: t).getLast?, isSpace c = false := by
        rwa [List.getLast?_append_of_ne_nil l (List.cons_ne_nil b t)]
      rw [trimRight_gap hr hlast', trimLeft_gap hl hhead]

end StringAlgo

theorem trimLeft_meets (s : Bytes) : ∃ gap, s = gap ++ trimLeft s ∧ (∀ b ∈ gap, isSpace b = true) ∧
    ∀ b ∈ (trimLeft s).head?, isSpace b = false := by
  refine ⟨s.takeWhile isSpace, List.takeWhile_append_dropWhile.symm, fun b hb => List.mem_takeWhile_imp hb, ?_⟩
  intro b hb
  have hdrop := List.head?_dropWhile_not isSpace s
  rw [show s.dropWhile isSpace = trimLeft s from rfl, Option.mem_def.mp hb] at hdrop
  simpa using hdrop

theorem trimRight_meets (s : Bytes) : ∃ gap, s = trimRight s ++ gap ∧ (∀ b ∈ gap, isSpace b = true) ∧
    ∀ b ∈ (trimRight s).getLast?, isSpace b = false := by
  obtain ⟨gap, hs, hgap, hhead⟩ := trimLeft_meets s.reverse
  have hright : trimRight s = (trimLeft s.reverse).reverse := rfl
  rw [hright]
  refine ⟨gap.reverse, ?_, by simpa using hgap, by simpa using hhead⟩
  rw [← List.reverse_append, ← hs, List.reverse_reverse]

theorem trim_meets (s : Bytes) : ∃ l r, s = l ++ trim s ++ r ∧ (∀ b ∈ l ++ r, isSpace b = true) ∧
    (∀ b ∈ (trim s).head?, isSpace b = false) ∧ ∀ b ∈ (trim s).getLast?, isSpace b = false := by
  obtain ⟨r, hright, hr, hlast⟩ := trimRight_meets s
  obtain ⟨l, hleft, hl, hhead⟩ := trimLeft_meets (trimRight s)
  have htrim : trimRight s = l ++ trim s := hleft
  refine ⟨l, r, by rw [← htrim]; exact hright, List.forall_mem_append.mpr ⟨hl, hr⟩, hhead, ?_⟩
  intro b hb
  have hne : trim s ≠ [] := by
    intro hempty
    rw [hempty] at hb
    cases hb
  rw [htrim, List.getLast?_append_of_ne_nil l hne] at hlast
  exact hlast b hb

/-- The functions of this module are such algorithms. -/
def stringAlgo : StringAlgo where
  split isDelim compressOn s := split isDelim (if compressOn then compress isDelim s else s)
  trimLeft := trimLeft
  trimRight := trimRight
  trim := trim
  toLower := toLower
  split_last := by
    intro isDelim compressOn s h
    cases compressOn with
    | true => exact (congrArg (split isDelim) (compress_clear h)).trans (split_clear h)
    | false => exact split_clear h
  split_off := fun _ _ _ s htoken hd => split_token htoken hd s
  split_on := fun _ _ _ _ htoken hgap hne hs => split_gap htoken hgap hne hs
  trimLeft_spec := trimLeft_meets
  trimRight_spec := trimRight_meets
  trim_spec := trim_meets
  toLower_spec := fun _ => rfl

/-- The documentation leaves no choice: what holds with the functions of this
module holds with any that do what it says. -/
theorem StringAlgo.unique (lib : StringAlgo) : lib = stringAlgo := by
  ext1
  · funext isDelim compressOn s
    cases compressOn with
    | true => exact lib.split_on_eq isDelim s
    | false => exact lib.split_off_eq isDelim s
  · funext s
    exact lib.trimLeft_eq s
  · funext s
    exact lib.trimRight_eq s
  · funext s
    exact lib.trim_eq s
  · funext s
    exact lib.toLower_spec s

end SearchEngine.Boost
