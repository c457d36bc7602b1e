import SearchEngine.RoFile

namespace SearchEngine.RoFile

open Simulation

/-- The buffer holds the bytes of the file from bufPos on, the descriptor is
at its end and the user's position in it. -/
structure At (f : OpenedFile) (file : RoFile) (pos : Nat) : Prop where
  position : file.bufPos + file.bufIndex = pos
  index_le : file.bufIndex ≤ file.bufEnd
  end_le : file.bufEnd ≤ RO_FILE_BUF_LEN
  size : file.buf.length = RO_FILE_BUF_LEN
  offset : file.fd.offset = file.bufPos + file.bufEnd
  buffered : file.buf.take file.bufEnd = (f.contents.drop file.bufPos).take file.bufEnd

/-- The int that ro_read passes for a size_t is the length itself, or it is not
negative and enough for what is left of the file. -/
def Fits (len remaining : Nat) : Prop :=
  len < 2 ^ 31 ∨ (len % 2 ^ 32 < 2 ^ 31 ∧ remaining ≤ len % 2 ^ 32)

instance (len remaining : Nat) : Decidable (Fits len remaining) := inferInstanceAs (Decidable (_ ∨ _))

theorem toInt_mod (n : Nat) : toInt (n % 4294967296) = toInt n := by
  unfold toInt
  rw [Int.natCast_mod]
  exact Int.emod_bmod n 4294967296

theorem Fits.amount {len remaining : Nat} (h : Fits len remaining) :
    ∃ amount : Nat, toInt len = amount ∧ amount ≤ len ∧ (amount = len ∨ remaining ≤ amount) := by
  rcases h with hlt | ⟨hlt, hle⟩
  · exact ⟨len, toInt_of_lt hlt, Nat.le_refl _, .inl rfl⟩
  · refine ⟨len % 4294967296, ?_, Nat.mod_le _ _, .inr hle⟩
    rw [← toInt_mod]
    exact toInt_of_lt hlt

theorem Fits.sub {len remaining n : Nat} (h : Fits len remaining) (hn : n ≤ len) (hn' : n ≤ remaining) :
    Fits (len - n) (remaining - n) := by
  unfold Fits at h ⊢
  omega

section

variable {f : OpenedFile} {file : RoFile} {pos : Nat}

theorem At.end_le_rest (h : At f file pos) : file.bufEnd ≤ f.contents.length - file.bufPos := by
  have hlen := congrArg List.length h.buffered
  have hend := h.end_le
  simp only [List.length_take, List.length_drop, h.size] at hlen
  omega

theorem At.copy (h : At f file pos) {n : Nat} (hn : n ≤ file.bufEnd - file.bufIndex) :
    (file.buf.drop file.bufIndex).take n = (f.contents.drop pos).take n := by
  have hbuf := congrArg (fun bs => (bs.drop file.bufIndex).take n) h.buffered
  simp only [List.drop_take, List.take_take, List.drop_drop, Nat.min_eq_left hn, h.position] at hbuf
  exact hbuf

/-- Flushing copies as much as is wanted and buffered. -/
theorem flushBuffer_spec (h : At f file pos) {len : Nat} (hfits : Fits len (f.contents.length - pos)) :
    ∃ file' n, flushBuffer file (toInt len) = .ok (file', (f.contents.drop pos).take n) ∧ At f file' (pos + n) ∧
      n ≤ len ∧ n ≤ f.contents.length - pos ∧ (n = len ∨ file'.bufIndex = file'.bufEnd) ∧
      (file.bufIndex < file.bufEnd → 0 < len → 0 < n) := by
  obtain ⟨amount, hamount, hle, hcase⟩ := hfits.amount
  have hrest := h.end_le_rest
  have hidx := h.index_le
  have hpos := h.position
  obtain ⟨n, hn⟩ : ∃ n, n = min amount (file.bufEnd - file.bufIndex) := ⟨_, rfl⟩
  refine ⟨{ file with bufIndex := file.bufIndex + n }, n, ?_, ?_, by omega, by omega, ?_, by omega⟩
  · have hflush : (if (amount : Int) > (file.bufEnd : Int) - file.bufIndex then (file.bufEnd : Int) - file.bufIndex
        else amount) = (n : Nat) := by
      split <;> omega
    have hpositive : ¬((n : Nat) : Int) < 0 := by omega
    simp only [flushBuffer, hamount, hflush, hpositive, if_false, Int.toNat_natCast,
      h.copy (n := n) (by omega)]
  · have hsum : file.bufPos + (file.bufIndex + n) = pos + n := by omega
    have hindex : file.bufIndex + n ≤ file.bufEnd := by omega
    exact ⟨hsum, hindex, h.end_le, h.size, h.offset, h.buffered⟩
  · change n = len ∨ file.bufIndex + n = file.bufEnd
    omega

/-- A read of the operating system makes progress before the end. -/
theorem read_spec (f : OpenedFile) (fd : Descriptor) {count : Nat} (hcount : 0 < count) :
    ∃ n, f.read fd count = (⟨fd.offset + n, fd.reads + 1⟩, (f.contents.drop fd.offset).take n) ∧ n ≤ count ∧
      n ≤ f.contents.length - fd.offset ∧ (n = 0 → f.contents.length ≤ fd.offset) := by
  obtain ⟨k, hk⟩ : ∃ k, k = max 1 (f.schedule fd.reads) := ⟨_, rfl⟩
  obtain ⟨n, hn⟩ : ∃ n, n = min (min k count) (f.contents.length - fd.offset) := ⟨_, rfl⟩
  have hbytes : ((f.contents.drop fd.offset).take count).take k = (f.contents.drop fd.offset).take n := by
    rw [List.take_take, List.take_eq_take_iff, List.length_drop]
    omega
  refine ⟨n, ?_, by omega, by omega, by omega⟩
  simp only [OpenedFile.read, ← hk, hbytes, List.length_take, List.length_drop]
  rw [Nat.min_eq_left (by omega)]

/-- What one read of fill_buffer brings goes behind what is buffered. -/
theorem At.extend (h : At f file pos) {n : Nat} (hfit : file.bufEnd + n ≤ RO_FILE_BUF_LEN)
    (hn : n ≤ f.contents.length - file.fd.offset) (reads : Nat) :
    At f
      ⟨⟨file.fd.offset + n, reads⟩,
        file.buf.take file.bufEnd ++ (f.contents.drop file.fd.offset).take n ++ file.buf.drop (file.bufEnd + n),
        file.bufPos, file.bufIndex, file.bufEnd + n⟩ pos := by
  have hsize := h.size
  have hend := h.end_le
  have hlen : ((f.contents.drop file.fd.offset).take n).length = n := by simp [hn]
  have hlen' : (file.buf.take file.bufEnd ++ (f.contents.drop file.fd.offset).take n).length = file.bufEnd + n := by
    rw [List.length_append, hlen, List.length_take, hsize, Nat.min_eq_left hend]
  refine ⟨h.position, Nat.le_trans h.index_le (Nat.le_add_right _ _), hfit, ?_, ?_, ?_⟩
  · simp only [List.length_append, hlen, List.length_take, List.length_drop, hsize]
    omega
  · change file.fd.offset + n = file.bufPos + (file.bufEnd + n)
    rw [h.offset, Nat.add_assoc]
  · have htake := @List.take_left _ (file.buf.take file.bufEnd ++ (f.contents.drop file.fd.offset).take n)
      (file.buf.drop (file.bufEnd + n))
    have hsum : (f.contents.drop file.bufPos).take (file.bufEnd + n) =
        file.buf.take file.bufEnd ++ (f.contents.drop file.fd.offset).take n := by
      rw [List.take_add, h.buffered, List.drop_drop, h.offset]
    rw [hlen'] at htake
    exact htake.trans hsum.symm

/-- The buffer ends up full, or holding all that was left of the file. -/
theorem fillLoop_spec (fuel : Nat) (h : At f file pos) (hindex : file.bufIndex = 0)
    (hfuel : RO_FILE_BUF_LEN - file.bufEnd < fuel) :
    ∃ file', fillLoop f fuel file file.bufEnd = .ok (file', file'.bufEnd) ∧ At f file' pos ∧ file'.bufIndex = 0 ∧
      file'.bufEnd = min RO_FILE_BUF_LEN (f.contents.length - pos) := by
  induction fuel generalizing file with
  | zero => omega
  | succ fuel ih =>
      have hrest := h.end_le_rest
      have hend := h.end_le
      have hpos : file.bufPos = pos := by
        have := h.position
        omega
      by_cases hlt : file.bufEnd < RO_FILE_BUF_LEN
      · obtain ⟨n, hread, hcount, hn, hzero⟩ := read_spec f file.fd
          (show 0 < RO_FILE_BUF_LEN - file.bufEnd by omega)
        have hoffset := h.offset
        have hlen : ((f.contents.drop file.fd.offset).take n).length = n := by simp [hn]
        by_cases hn0 : n = 0
        · have hsize := hzero hn0
          refine ⟨{ file with fd := ⟨file.fd.offset + n, file.fd.reads + 1⟩ }, ?_, ?_, hindex, ?_⟩
          · simp only [fillLoop, hlt, if_true, hread, hlen]
            rw [if_pos hn0]
          · exact ⟨h.position, h.index_le, h.end_le, h.size, by rw [hn0]; exact hoffset, h.buffered⟩
          · change file.bufEnd = _
            omega
        · obtain ⟨file', hfill, hat, hindex', hend'⟩ :=
            ih (h.extend (n := n) (by omega) hn (file.fd.reads + 1)) hindex (by
              change RO_FILE_BUF_LEN - (file.bufEnd + n) < fuel
              omega)
          refine ⟨file', ?_, hat, hindex', hend'⟩
          simp only [fillLoop, hlt, if_true, hread, hlen, hn0, if_false]
          exact hfill
      · refine ⟨file, by simp only [fillLoop, hlt, if_false], h, hindex, ?_⟩
        rw [hpos] at hrest
        omega

theorem fillBuffer_spec (h : At f file pos) (hempty : file.bufIndex = file.bufEnd) :
    ∃ file', fillBuffer f file = .ok (file', file'.bufEnd) ∧ At f file' pos ∧ file'.bufIndex = 0 ∧
      file'.bufEnd = min RO_FILE_BUF_LEN (f.contents.length - pos) := by
  have hoffset : file.fd.offset = pos := by
    rw [h.offset, ← hempty, h.position]
  have hreset : At f ⟨file.fd, file.buf, file.fd.offset, 0, 0⟩ pos :=
    ⟨hoffset, Nat.le_refl 0, Nat.zero_le _, h.size, rfl, by simp⟩
  exact fillLoop_spec (RO_FILE_BUF_LEN + 1) hreset rfl (Nat.lt_succ_self _)

theorem readLoop_spec (len fuel : Nat) {copied : Bytes} (h : At f file pos) (hle : copied.length ≤ len)
    (hfits : Fits (len - copied.length) (f.contents.length - pos))
    (hempty : copied.length = len ∨ file.bufIndex = file.bufEnd) (hfuel : f.contents.length - pos < fuel) :
    ∃ file', readLoop f len fuel file copied = .ok (file', copied ++ (f.contents.drop pos).take (len - copied.length)) ∧
      At f file' (pos + ((f.contents.drop pos).take (len - copied.length)).length) := by
  induction fuel generalizing file pos copied with
  | zero => omega
  | succ fuel ih =>
      by_cases hlen : copied.length = len
      · refine ⟨file, ?_, ?_⟩
        · simp [readLoop, hlen]
        · simpa [hlen] using h
      · obtain ⟨file₁, hfill, hat, hindex, hend⟩ := fillBuffer_spec h (hempty.resolve_left hlen)
        by_cases hzero : file₁.bufEnd = 0
        · have hrest : f.contents.drop pos = [] := by
            rw [List.drop_eq_nil_iff]
            unfold RO_FILE_BUF_LEN at hend
            omega
          refine ⟨file₁, ?_, ?_⟩
          · simp [readLoop, hlen, hfill, hzero, hrest]
          · simpa [hrest] using hat
        · obtain ⟨file₂, n, hflush, hat', hn, hn', hdone, hprogress⟩ := flushBuffer_spec hat hfits
          have hpos : 0 < n := hprogress (by omega) (by omega)
          have hbytes : ((f.contents.drop pos).take n).length = n := by simp [hn']
          have hnow : (copied ++ (f.contents.drop pos).take n).length = copied.length + n := by
            rw [List.length_append, hbytes]
          have hleft : len - (copied.length + n) = len - copied.length - n := Nat.sub_add_eq _ _ _
          have hsplit : (f.contents.drop pos).take (len - copied.length) =
              (f.contents.drop pos).take n ++ (f.contents.drop (pos + n)).take (len - copied.length - n) := by
            rw [← List.drop_drop, ← List.take_add, Nat.add_sub_cancel' hn]
          obtain ⟨file', hloop, hat''⟩ := ih hat'
            (show (copied ++ (f.contents.drop pos).take n).length ≤ len by rw [hnow]; omega)
            (by rw [hnow, hleft, Nat.sub_add_eq]; exact hfits.sub hn hn')
            (by rw [hnow]; omega) (by omega)
          rw [hnow, hleft] at hloop hat''
          refine ⟨file', ?_, ?_⟩
          · simp only [readLoop, hlen, ne_eq, not_false_eq_true, if_true, hfill, Run.ok_bind, hzero, if_false,
              hflush, hloop, hsplit, List.append_assoc]
          · rw [hsplit, List.length_append, hbytes, ← Nat.add_assoc]
            exact hat''

/-- A read whose length fits delivers the next bytes at the user's position. -/
theorem roRead_spec (h : At f file pos) {len : Nat} (hfits : Fits len (f.contents.length - pos)) :
    ∃ file', roRead f file len = .ok (file', (f.contents.drop pos).take len) ∧
      At f file' (pos + ((f.contents.drop pos).take len).length) := by
  obtain ⟨file₁, n, hflush, hat, hn, hn', hdone, _⟩ := flushBuffer_spec h hfits
  have hbytes : ((f.contents.drop pos).take n).length = n := by simp [hn']
  have hsplit : (f.contents.drop pos).take len =
      (f.contents.drop pos).take n ++ (f.contents.drop (pos + n)).take (len - n) := by
    rw [← List.drop_drop, ← List.take_add, Nat.add_sub_cancel' hn]
  obtain ⟨file', hloop, hat'⟩ := readLoop_spec len (f.contents.length + 2) hat
    (show ((f.contents.drop pos).take n).length ≤ len by rw [hbytes]; exact hn)
    (by rw [hbytes, Nat.sub_add_eq]; exact hfits.sub hn hn')
    (by rw [hbytes]; exact hdone) (by omega)
  rw [hbytes] at hloop hat'
  refine ⟨file', ?_, ?_⟩
  · rw [roRead, hflush, hsplit]
    exact hloop
  · rw [hsplit, List.length_append, hbytes, ← Nat.add_assoc]
    exact hat'

/-- When a call does what it should: a read whose length survives the int of
flush_buffer, and a relative seek that finds nothing unread in the buffer, or
that fails from either of the two positions. -/
def Meets (f : OpenedFile) (file : RoFile) : Op → Prop
  | .read len => Fits len (f.contents.length - file.roTell)
  | .seek offset .SEEK_CUR =>
      file.bufIndex = file.bufEnd ∨ (file.fd.offset : Int) + offset < 0 ∨ (f.offsetLimit : Int) < file.roTell + offset
  | .seek _ .SEEK_SET | .seek _ .SEEK_END | .tell => True

instance (f : OpenedFile) (file : RoFile) (op : Op) : Decidable (Meets f file op) := by
  unfold Meets
  split <;> infer_instance

theorem seek_agrees (h : At f file pos) {offset : Int} {whence : Whence}
    (htarget : f.target file.fd.offset offset whence = f.target pos offset whence) :
    Agrees (At f) (step f file (.seek offset whence)) (plainStep f pos (.seek offset whence)) := by
  simp only [step, plainStep, roSeek, OpenedFile.lseek, htarget]
  cases f.target pos offset whence with
  | none => exact .ok _ h
  | some newPos => exact .ok _ ⟨rfl, Nat.le_refl 0, Nat.zero_le _, h.size, rfl, by simp⟩

theorem step_agrees (h : At f file pos) (op : Op) (hmeets : Meets f file op) :
    Agrees (At f) (step f file op) (plainStep f pos op) := by
  have htell : file.roTell = pos := h.position
  have hoffset := h.offset
  have hindex := h.index_le
  cases op with
  | read len =>
      have hfits : Fits len (f.contents.length - pos) := by
        rw [← htell]
        exact hmeets
      obtain ⟨file', hread, hat⟩ := roRead_spec h hfits
      simp only [step, hread, Run.ok_bind]
      exact .ok _ hat
  | tell =>
      simp only [step, htell]
      exact .ok _ h
  | seek offset whence =>
      apply seek_agrees h
      cases whence with
      | SEEK_SET | SEEK_END => rfl
      | SEEK_CUR =>
          have hpos := h.position
          rcases hmeets with hempty | hlow | hhigh
          · rw [show file.fd.offset = pos by omega]
          · -- the descriptor is at or after the user's position, so both seeks go below zero
            simp only [OpenedFile.target]
            rw [if_neg (by omega), if_neg (by omega)]
          · simp only [OpenedFile.target]
            rw [if_neg (by omega), if_neg (by omega)]

end

theorem roOpen_at (f : OpenedFile) : At f roOpen 0 :=
  ⟨rfl, Nat.le_refl 0, Nat.zero_le _, List.length_replicate, rfl, by simp [roOpen]⟩

theorem roClose_eq {file : RoFile} {osCloses : Bool} (h : file.bufEnd = 0 ∨ osCloses = false) :
    file.roClose osCloses = if osCloses then 0 else -1 := by
  rcases h with h | rfl
  · simp [roClose, h]
  · simp [roClose]

/-- A session whose calls all meet the condition, and that closes with nothing
in the buffer, is one on the unbuffered file. -/
theorem session_refines_plain (f : OpenedFile) (ops : List Op) (osCloses : Bool)
    (hops : Along (step f) (Meets f) roOpen ops)
    (hclose : ∀ file replies, run (step f) roOpen ops = .ok (file, replies) → file.bufEnd = 0 ∨ osCloses = false) :
    session f ops osCloses = plainSession f ops osCloses := by
  have h := run_agrees_along (R := At f) (fun file pos op hat => step_agrees hat op) ops (roOpen_at f) hops
  unfold session plainSession
  generalize hrun : run (step f) roOpen ops = x at h
  generalize run (plainStep f) 0 ops = y at h
  cases h with
  | error e => rfl
  | @ok file pos replies hat =>
      simp only [Run.ok_bind, Run.pure_eq_ok, roClose_eq (hclose file replies hrun)]

def threeBytes : OpenedFile := ⟨[65, 66, 67], fun _ => 2, 100, by decide, by decide⟩

theorem session_refines_plain_small :
    session threeBytes [.read 2, .tell, .seek 1 .SEEK_SET, .read 7, .seek 0 .SEEK_CUR] true =
      plainSession threeBytes [.read 2, .tell, .seek 1 .SEEK_SET, .read 7, .seek 0 .SEEK_CUR] true := by
  refine session_refines_plain _ _ _ (by decide +kernel) fun file replies hrun => ?_
  have hend : (run (step threeBytes) roOpen
      [.read 2, .tell, .seek 1 .SEEK_SET, .read 7, .seek 0 .SEEK_CUR]).toOption.map (fun r => r.1.bufEnd) = some 0 := by
    decide +kernel
  rw [hrun] at hend
  exact .inl (Option.some.inj hend)

/-- Reading one byte of three and seeking by zero moves to the end of the
file, and closing with bytes in the buffer fails. -/
theorem session_differs :
    ¬∀ (f : OpenedFile) (ops : List Op) (osCloses : Bool), session f ops osCloses = plainSession f ops osCloses := by
  intro h
  have hseek := congrArg Except.toOption (h threeBytes [.read 1, .seek 0 .SEEK_CUR, .tell] true)
  exact absurd hseek (by decide +kernel)

end SearchEngine.RoFile
