import SearchEngine.ServedFiles

/-! ReadFileToString on every schedule of its system calls. -/

namespace SearchEngine.FileParser

/-- The offset that a file's reads have come to when the reader stops, because
it has as many bytes as the file had or has met the end; none when a read fails
before. -/
def readUpTo (size : Nat) : List ReadOutcome → Nat → Option Nat
  | [], _ => some size
  | outcome :: reads, off =>
      if size ≤ off then some off
      else
        match outcome with
        | .again => readUpTo size reads off
        | .failed => none
        | .endOfFile => some off
        | .bytes n _ => readUpTo size reads (min size (off + n))

theorem readUpTo_le {size : Nat} {reads : List ReadOutcome} {off n : Nat} (h : readUpTo size reads off = some n)
    (hoff : off ≤ size) : n ≤ size := by
  induction reads generalizing off with
  | nil =>
      cases h
      exact Nat.le_refl _
  | cons outcome reads ih =>
      unfold readUpTo at h
      split at h
      · cases h
        exact hoff
      · cases outcome with
        | again => exact ih h hoff
        | failed => cases h
        | endOfFile =>
            cases h
            exact hoff
        | bytes m hm => exact ih h (Nat.min_le_left _ _)

theorem readUpTo_whole {size : Nat} {reads : List ReadOutcome} {off : Nat} (hoff : off ≤ size)
    (hend : .endOfFile ∉ reads) (hfail : .failed ∉ reads) : readUpTo size reads off = some size := by
  induction reads generalizing off with
  | nil => rfl
  | cons outcome reads ih =>
      have hend' : .endOfFile ∉ reads := fun hmem => hend (List.mem_cons_of_mem outcome hmem)
      have hfail' : .failed ∉ reads := fun hmem => hfail (List.mem_cons_of_mem outcome hmem)
      unfold readUpTo
      split
      · next hall => rw [Nat.le_antisymm hoff hall]
      · cases outcome with
        | again => exact ih hoff hend' hfail'
        | failed => exact absurd List.mem_cons_self hfail
        | endOfFile => exact absurd List.mem_cons_self hend
        | bytes m hm => exact ih (Nat.min_le_left _ _) hend' hfail'

/-- The buffer holds what has been read, in file order, at every turn. -/
theorem readLoop_eq (contents : Bytes) (reads : List ReadOutcome) {k : Nat} (hk : k ≤ contents.length) :
    readLoop contents reads (contents.take k) (contents.length - k) =
      (readUpTo contents.length reads k).map fun n => (contents.take n, contents.length - n) := by
  induction reads generalizing k with
  | nil =>
      obtain ⟨hall, hlen⟩ := read_part (Nat.le_of_eq (Nat.add_sub_cancel' hk))
      rw [readLoop, hall, hlen, Nat.add_sub_cancel' hk, Nat.sub_self]
      simp [readUpTo]
  | cons outcome reads ih =>
      unfold readLoop readUpTo
      by_cases hall : contents.length ≤ k
      · rw [if_pos (Nat.sub_eq_zero_of_le hall), if_pos hall]
        rfl
      · rw [if_neg (by omega), if_neg hall]
        cases outcome with
        | again => exact ih hk
        | failed => rfl
        | endOfFile => rfl
        | bytes n hn =>
            have hle : k + min n (contents.length - k) ≤ contents.length := by omega
            obtain ⟨hpart, hlen⟩ := read_part hle
            have hmin : min contents.length (k + n) = k + min n (contents.length - k) := by omega
            dsimp only
            rw [hpart, hlen, if_neg (by omega), Nat.sub_sub, hmin]
            exact ih hle

/-- What FileParser.h promises about one call, and that the descriptor is closed. -/
structure ReadsCorrectly (fs : FileSystem) (calls : ReadCalls) (fileName contents : Bytes) : Prop where
  result : ∃ s, readFileToString fs calls fileName = .ok s ∧ s.openFds = 0 ∧
    (s.buf = none ∨ ∃ n, readUpTo contents.length calls.reads 0 = some n ∧
      s.buf = some (contents.take n ++ [0], (n : Int)) ∧
      (.failed ∉ calls.reads → .endOfFile ∉ calls.reads → contents.take n = contents))

variable {fs : FileSystem} {calls : ReadCalls} {fileName contents : Bytes}

theorem storeNul_end (buf : Bytes) : storeNul buf (buf.length : Int) = .ok (buf ++ [0]) := by
  simp [storeNul]

theorem readFileToString_opened (hfile : fs.stat fileName = some (.regular contents)) (hopens : calls.opens = true)
    (hallocates : calls.allocates = true) :
    readFileToString fs calls fileName =
      match readUpTo contents.length calls.reads 0 with
      | none => .ok ⟨none, 1⟩
      | some n => do
          let nul ← storeNul (contents.take n) (int32 n)
          return ⟨some (nul, int32 n), 0⟩ := by
  have hloop := readLoop_eq contents calls.reads (Nat.zero_le contents.length)
  rw [List.take_zero, Nat.sub_zero] at hloop
  rw [readFileToString, hfile]
  simp only [hopens, hallocates, hloop]
  cases hread : readUpTo contents.length calls.reads 0 with
  | none => rfl
  | some n =>
      have hn := readUpTo_le hread (Nat.zero_le _)
      have hsize : (contents.length : Int) - ((contents.length - n : Nat) : Int) = n := by omega
      simp only [Option.map_some, hsize]
      rfl

/-- The early returns of a failed malloc and a failed read leave the descriptor
open. -/
theorem not_readsCorrectly (hrun : readFileToString fs calls fileName = .ok ⟨none, 1⟩) :
    ¬ReadsCorrectly fs calls fileName contents := by
  rintro ⟨s, hs, hfds, _⟩
  rw [hrun] at hs
  cases hs
  cases hfds

/-- What was read comes back when its size is an int. -/
theorem readsCorrectly_iff_of_read {n : Nat} (hread : readUpTo contents.length calls.reads 0 = some n)
    (hrun : readFileToString fs calls fileName = do
      let nul ← storeNul (contents.take n) (int32 n)
      return ⟨some (nul, int32 n), 0⟩) :
    ReadsCorrectly fs calls fileName contents ↔ n < 2 ^ 31 := by
  constructor
  · rintro ⟨s, hs, _, hbuf⟩
    rw [hrun] at hs
    obtain ⟨nul, _, hs⟩ := Run.bind_eq_ok.mp hs
    cases hs
    rcases hbuf with hnone | ⟨m, hm, hsome, _⟩
    · cases hnone
    · rw [hread] at hm
      obtain rfl := Option.some.inj hm
      simp only [Option.some.injEq, Prod.mk.injEq] at hsome
      exact int32_eq_natCast.mp hsome.2
  · intro hlt
    have hint : int32 (n : Int) = n := int32_eq_natCast.mpr hlt
    have hlen : (contents.take n).length = n := List.length_take_of_le (readUpTo_le hread (Nat.zero_le _))
    have hstore := storeNul_end (contents.take n)
    rw [hlen] at hstore
    refine ⟨⟨some (contents.take n ++ [0], n), 0⟩, ?_, rfl, .inr ⟨n, hread, rfl, fun hfail hend => ?_⟩⟩
    · rw [hrun, hint]
      simp [hstore]
    · rw [readUpTo_whole (Nat.zero_le _) hend hfail] at hread
      cases hread
      exact List.take_length

theorem readFileToString_correct_iff (hfile : fs.stat fileName = some (.regular contents)) :
    ReadsCorrectly fs calls fileName contents ↔
      calls.opens = false ∨
        calls.allocates = true ∧ ∃ n, readUpTo contents.length calls.reads 0 = some n ∧ n < 2 ^ 31 := by
  cases hopens : calls.opens with
  | false =>
      refine ⟨fun _ => .inl rfl, fun _ => ⟨⟨none, 0⟩, ?_, rfl, .inl rfl⟩⟩
      rw [readFileToString, hfile]
      simp [hopens]
  | true =>
      cases hallocates : calls.allocates with
      | false =>
          have hrun : readFileToString fs calls fileName = .ok ⟨none, 1⟩ := by
            rw [readFileToString, hfile]
            simp [hopens, hallocates]
          exact iff_of_false (not_readsCorrectly hrun) (by simp)
      | true =>
          have hrun := readFileToString_opened hfile hopens hallocates
          cases hread : readUpTo contents.length calls.reads 0 with
          | none =>
              rw [hread] at hrun
              exact iff_of_false (not_readsCorrectly hrun) (by simp)
          | some n =>
              rw [hread] at hrun
              rw [readsCorrectly_iff_of_read hread hrun]
              simp

theorem readFileToString_correct_interrupted :
    (HttpServer.OneFile.fileSystem [104, 105, 33]).stat HttpServer.OneFile.file.toBytes =
        some (.regular [104, 105, 33]) ∧
      ReadsCorrectly (HttpServer.OneFile.fileSystem [104, 105, 33])
        ⟨true, true, [.again, .bytes 2 (by decide), .again]⟩ HttpServer.OneFile.file.toBytes [104, 105, 33] :=
  ⟨rfl, (readFileToString_correct_iff rfl).mpr (.inr ⟨rfl, 3, rfl, by decide⟩)⟩

/-- A read that fails leaves the descriptor open. -/
theorem readFileToString_leaks :
    ¬∀ (fs : FileSystem) (calls : ReadCalls) (fileName contents : Bytes),
      fs.stat fileName = some (.regular contents) → ReadsCorrectly fs calls fileName contents := by
  intro h
  obtain ⟨s, hs, hfds, _⟩ := h (HttpServer.OneFile.fileSystem [104, 105, 33]) ⟨true, true, [.failed]⟩
    HttpServer.OneFile.file.toBytes [104, 105, 33] rfl
  cases hs
  cases hfds

end SearchEngine.FileParser
