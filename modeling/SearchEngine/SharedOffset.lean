import SearchEngine.RawTables

/-! Streams on duplicates of one descriptor. Each has a buffer of its own, and
all of them have the same file offset. -/

namespace SearchEngine

open FileProgram Program

/-- A FILE*: its buffer, how much of that the program has read, and where the
offset of its descriptor is by its own account. -/
structure Stream where
  buffer : Bytes
  next : Nat
  offset : Nat

/-- A stream, and the offset that its descriptor shares with others. -/
structure SharedStream where
  file : Stream
  offset : Nat

/-- What one read of the descriptor gives from this offset on: no more than the
file has. -/
def FileImage.readAt (image : FileImage) (offset count : Nat) : Bytes :=
  image.slice offset (min count (image.length - offset))

namespace Stream

def unread (file : Stream) : Bytes := file.buffer.drop file.next

/-- The read has to go to the descriptor. -/
def Refills (file : Stream) : FileOp → Prop
  | .read n => file.unread.length < n
  | _ => False

instance (file : Stream) (op : FileOp) : Decidable (file.Refills op) := by
  cases op with
  | read n => exact inferInstanceAs (Decidable (_ < _))
  | create | openRead | seek | write | sync | size | close | unlink => exact isFalse id

/-- The buffer is a piece of the file, with what is unread of it from here to
where the stream left the offset. -/
structure Follows (file : Stream) (image : FileImage) (pos : Nat) : Prop where
  offset : pos + file.unread.length = file.offset
  next : file.next ≤ file.buffer.length
  base : file.next ≤ pos
  holds : image.Holds (pos - file.next) file.buffer

end Stream

namespace SharedStream

/-- The stream after a seek out of its buffer, as in glibc: the offset is set
to the boundary of a block, and the block is read, but no more than up to the
target if the buffer was empty. A target past the end of the file leaves an
empty buffer. -/
def readBlock (bufSize : Nat) (image : FileImage) (target : Nat) (file : Stream) : Stream :=
  let block := target / bufSize * bufSize
  let delta := target - block
  let buffer := image.readAt block (if delta = 0 ∨ file.buffer = [] then delta else bufSize)
  if delta ≤ buffer.length then ⟨buffer, delta, block + buffer.length⟩ else ⟨[], 0, target⟩

/-- A seek inside the buffer keeps the buffer, and sets the offset to where it
should be for it. -/
def seek (bufSize : Nat) (image : FileImage) (target : Nat) (s : SharedStream) : SharedStream :=
  let base := s.file.offset - s.file.buffer.length
  if base ≤ target ∧ target < s.file.offset then ⟨{ s.file with next := target - base }, s.file.offset⟩
  else
    let file := readBlock bufSize image target s.file
    ⟨file, file.offset⟩

/-- Whole buffers go straight to the program; what is then still missing is
read into the stream's own. All of it comes from wherever the offset is now. -/
def refill (bufSize : Nat) (image : FileImage) (missing : Nat) (s : SharedStream) : SharedStream :=
  let direct := missing / bufSize * bufSize
  let rest := missing % bufSize
  let buffer := image.readAt (s.offset + direct) (if rest = 0 then 0 else bufSize)
  ⟨⟨buffer, rest, s.file.offset + direct + buffer.length⟩, s.offset + direct + buffer.length⟩

/-- A read past the end of the file: the process is about to end. -/
def readToEnd (image : FileImage) (s : SharedStream) : SharedStream :=
  let last := image.readAt s.offset image.length
  ⟨⟨s.file.unread ++ last, 0, s.file.offset + last.length⟩, s.offset + last.length⟩

/-- The readers seek and read, and do nothing else with the file. -/
def handle (bufSize : Nat) (image : FileImage) (op : FileOp) (s : SharedStream) : FileReply × SharedStream :=
  match op with
  | .seek offset => if 0 ≤ offset then (.done, s.seek bufSize image offset.toNat) else (.failed, s)
  | .read n =>
      let unread := s.file.unread
      if n ≤ unread.length then (.data (unread.take n), ⟨{ s.file with next := s.file.next + n }, s.offset⟩)
      else
        let missing := n - unread.length
        if s.offset + missing ≤ image.length then
          (.data (unread ++ image.slice s.offset missing), s.refill bufSize image missing)
        else (.failed, s.readToEnd image)
  | _ => (.failed, s)

variable {bufSize : Nat} {image : FileImage} {s : SharedStream} {pos n : Nat} {α : Type}

theorem length_readAt (image : FileImage) (offset count : Nat) :
    (image.readAt offset count).length = min count (image.length - offset) := FileImage.length_slice _ _ _

theorem holds_readAt (image : FileImage) (offset count : Nat) : image.Holds offset (image.readAt offset count) := by
  by_cases hin : offset ≤ image.length
  · apply FileImage.holds_slice
    omega
  · rw [FileImage.readAt, show image.length - offset = 0 by omega, Nat.min_zero]
    intro i b hb
    cases hb

theorem length_unread (file : Stream) : file.unread.length = file.buffer.length - file.next := List.length_drop

/-- A buffer read at this offset, of which a part is passed over. -/
theorem follows_readAt (image : FileImage) {offset count delta : Nat}
    (h : delta ≤ (image.readAt offset count).length) :
    (Stream.mk (image.readAt offset count) delta (offset + (image.readAt offset count).length)).Follows image
      (offset + delta) := by
  constructor
  · simp only [length_unread]
    omega
  · exact h
  · exact Nat.le_add_left delta offset
  · simp only [Nat.add_sub_cancel]
    exact holds_readAt image offset count

theorem follows_empty (image : FileImage) (offset : Nat) : (Stream.mk [] 0 offset).Follows image offset := by
  constructor
  · rfl
  · exact Nat.le_refl 0
  · exact Nat.zero_le offset
  · intro i b hb
    cases hb

theorem follows_readBlock (bufSize : Nat) (image : FileImage) (target : Nat) (file : Stream) :
    (readBlock bufSize image target file).Follows image target := by
  simp only [readBlock]
  generalize (if target - target / bufSize * bufSize = 0 ∨ file.buffer = [] then
    target - target / bufSize * bufSize else bufSize) = count
  split
  · next hle =>
    have hblock := Nat.div_mul_le_self target bufSize
    have hfollows := follows_readAt image hle
    rwa [show target / bufSize * bufSize + (target - target / bufSize * bufSize) = target by omega] at hfollows
  · exact follows_empty image target

theorem follows_seek (bufSize : Nat) (h : s.file.Follows image pos) (target : Nat) :
    (s.seek bufSize image target).file.Follows image target := by
  rw [seek]
  split
  · next hin =>
    have hoffset := h.offset
    have hnext := h.next
    have hbase := h.base
    have hholds := h.holds
    rw [length_unread] at hoffset
    have hsame : pos - s.file.next = s.file.offset - s.file.buffer.length := by omega
    rw [hsame] at hholds
    constructor
    · simp only [length_unread]
      omega
    · simp only
      omega
    · simp only
      omega
    · simp only
      rwa [show target - (target - (s.file.offset - s.file.buffer.length)) =
        s.file.offset - s.file.buffer.length by omega]
  · exact follows_readBlock bufSize image target s.file

/-- What is unread of the buffer is what the file has there. -/
theorem unread_eq (h : s.file.Follows image pos) : s.file.unread = image.slice pos s.file.unread.length := by
  have hnext := h.next
  have hbase := h.base
  have hholds := h.holds
  have hlen : (s.file.buffer.take s.file.next).length = s.file.next := List.length_take_of_le hnext
  rw [← List.take_append_drop s.file.next s.file.buffer, FileImage.holds_append, hlen, Nat.sub_add_cancel hbase]
    at hholds
  exact hholds.2.slice.symm

theorem unread_le (h : s.file.Follows image pos) (hne : s.file.unread.length ≠ 0) :
    pos + s.file.unread.length ≤ image.length := by
  have hnext := h.next
  have hbase := h.base
  have hlen := length_unread s.file
  have hle := h.holds.le_length (List.ne_nil_of_length_pos (show 0 < s.file.buffer.length by omega))
  omega

theorem follows_buffered (h : s.file.Follows image pos) (hle : n ≤ s.file.unread.length) :
    (Stream.mk s.file.buffer (s.file.next + n) s.file.offset).Follows image (pos + n) := by
  have hoffset := h.offset
  have hnext := h.next
  have hbase := h.base
  have hholds := h.holds
  rw [length_unread] at hoffset hle
  constructor
  · simp only [length_unread]
    omega
  · simp only
    omega
  · simp only
    omega
  · simp only
    rwa [Nat.add_sub_add_right]

theorem follows_refill (hbuf : 0 < bufSize) (h : s.file.Follows image pos) (hsame : s.offset = s.file.offset)
    {missing : Nat} (hroom : s.offset + missing ≤ image.length) :
    (s.refill bufSize image missing).file.Follows image (pos + s.file.unread.length + missing) := by
  have hoffset := h.offset
  have hsplit := Nat.div_add_mod' missing bufSize
  have hlt := Nat.mod_lt missing hbuf
  have hle : missing % bufSize ≤ (image.readAt (s.offset + missing / bufSize * bufSize)
      (if missing % bufSize = 0 then 0 else bufSize)).length := by
    rw [length_readAt]
    split <;> omega
  have hfollows := follows_readAt image hle
  rw [show s.offset + missing / bufSize * bufSize + missing % bufSize = pos + s.file.unread.length + missing by
    omega] at hfollows
  rw [refill, ← hsame]
  exact hfollows

theorem follows_readToEnd (h : s.file.Follows image pos) (hsame : s.offset = s.file.offset) :
    (s.readToEnd image).file.Follows image pos := by
  have hoffset := h.offset
  constructor
  · simp only [readToEnd, Stream.unread, List.drop_zero, List.length_append]
    rw [Stream.unread] at hoffset
    omega
  · exact Nat.zero_le _
  · exact Nat.zero_le pos
  · refine FileImage.holds_append.mpr ⟨?_, ?_⟩
    · rw [unread_eq h]
      by_cases hnil : s.file.unread.length = 0
      · rw [hnil]
        intro i b hb
        cases hb
      · exact FileImage.holds_slice (unread_le h hnil)
    · have hat : pos - (s.readToEnd image).file.next + s.file.unread.length = s.offset := by
        rw [hsame]
        exact hoffset
      rw [hat]
      exact holds_readAt image s.offset image.length

/-- A stream is as good as a file of its own, as long as it finds the offset
where it left it whenever it goes to the descriptor. -/
theorem handle_simulates (hbuf : 0 < bufSize) {op : FileOp} (hop : Reads op) (h : s.file.Follows image pos)
    (hsame : s.file.Refills op → s.offset = s.file.offset) (linked : Bool) :
    ∃ pos', (OpenFile.handle op ⟨image, pos, linked⟩) = ((handle bufSize image op s).1, ⟨image, pos', linked⟩) ∧
      (handle bufSize image op s).2.file.Follows image pos' := by
  cases op with
  | create | openRead | write | sync | size | close | unlink => exact hop.elim
  | seek offset =>
      by_cases hneg : 0 ≤ offset
      · refine ⟨offset.toNat, by simp [handle, OpenFile.handle, hneg], ?_⟩
        simp only [handle, hneg, if_true]
        exact follows_seek bufSize h offset.toNat
      · exact ⟨pos, by simp [handle, OpenFile.handle, hneg], by simpa [handle, hneg] using h⟩
  | read n =>
      have hunread := unread_eq h
      by_cases hle : n ≤ s.file.unread.length
      · have hin := unread_le h (by have hpos : n ≠ 0 := hop; omega)
        have hroom : pos + n ≤ image.length := by omega
        have htake : s.file.unread.take n = image.slice pos n := by
          obtain ⟨k, hk⟩ := Nat.exists_eq_add_of_le hle
          rw [hunread, hk, FileImage.slice_append]
          exact List.take_left' (FileImage.length_slice _ _ _)
        refine ⟨pos + n, ?_, ?_⟩
        · simp only [handle, hle, if_true, OpenFile.handle, hroom, htake]
        · simp only [handle, hle, if_true]
          exact follows_buffered h hle
      · have hmoved := hsame (Nat.lt_of_not_le hle)
        have hoffset := h.offset
        by_cases hin : s.offset + (n - s.file.unread.length) ≤ image.length
        · have hroom : pos + n ≤ image.length := by omega
          have hdata : image.slice pos n =
              s.file.unread ++ image.slice s.offset (n - s.file.unread.length) := by
            have hn : n = s.file.unread.length + (n - s.file.unread.length) := by omega
            have hslice := image.slice_append pos s.file.unread.length (n - s.file.unread.length)
            rwa [← hn, ← hunread, hoffset, ← hmoved] at hslice
          have hfollows := follows_refill hbuf h hmoved hin
          rw [show pos + s.file.unread.length + (n - s.file.unread.length) = pos + n by omega] at hfollows
          refine ⟨pos + n, ?_, ?_⟩
          · simp only [handle, hle, hin, if_true, if_false, OpenFile.handle, hroom, hdata]
          · simp only [handle, hle, hin, if_true, if_false]
            exact hfollows
        · have hout : ¬pos + n ≤ image.length := by omega
          refine ⟨pos, ?_, ?_⟩
          · simp only [handle, hle, hin, if_false, OpenFile.handle, hout]
          · simp only [handle, hle, hin, if_false]
            exact follows_readToEnd h hmoved

/-- No stream moves the offset without taking note of it. -/
theorem handle_offset (op : FileOp) (h : s.offset = s.file.offset) :
    (handle bufSize image op s).2.offset = (handle bufSize image op s).2.file.offset := by
  cases op with
  | create | openRead | write | sync | size | close | unlink => exact h
  | seek offset =>
      rw [handle]
      split
      · rw [seek]
        split <;> rfl
      · exact h
  | read n =>
      simp only [handle]
      split
      · exact h
      · split
        · simp only [refill, h]
        · simp only [readToEnd, h]

/-- The same on a file with no other stream. -/
def outcome (image : FileImage) (pos : Nat) (p : FileProgram α) : Run α :=
  (p.run OpenFile.handle ⟨image, pos, true⟩).map Prod.fst

/-- A stream that nobody disturbs and the file that it reads. -/
structure Mirrors (image : FileImage) (s : SharedStream) (f : OpenFile) : Prop where
  bytes : f.image = image
  linked : f.linked = true
  follows : s.file.Follows image f.pos
  same : s.offset = s.file.offset

theorem Mirrors.step (hbuf : 0 < bufSize) {op : FileOp} {f : OpenFile} (hop : Reads op) (h : Mirrors image s f) :
    (handle bufSize image op s).1 = (OpenFile.handle op f).1 ∧
      Mirrors image (handle bufSize image op s).2 (OpenFile.handle op f).2 := by
  obtain ⟨image', pos, linked⟩ := f
  obtain rfl : image' = image := h.bytes
  obtain rfl : linked = true := h.linked
  obtain ⟨pos', hhandle, hfollows⟩ := handle_simulates hbuf hop h.follows (fun _ => h.same) true
  rw [hhandle]
  exact ⟨rfl, rfl, rfl, hfollows, handle_offset op h.same⟩

end SharedStream

end SearchEngine
