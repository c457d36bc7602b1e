import SearchEngine.HashTable
import SearchEngine.Library.Simulation

namespace SearchEngine

/-- The largest off_t. -/
def OFF_MAX : Nat := 9223372036854775807

/-- An open regular file as the operating system keeps it. The n-th read gives
at most as many bytes as the schedule says, but at least one before the end. -/
structure OpenedFile where
  contents : Bytes
  schedule : Nat → Nat
  offsetLimit : Nat
  size_le : contents.length ≤ offsetLimit
  offsetLimit_le : offsetLimit ≤ OFF_MAX

/-- The offset of the descriptor, and the number of reads made. -/
structure Descriptor where
  offset : Nat
  reads : Nat
  deriving DecidableEq

inductive Whence
  | SEEK_SET
  | SEEK_CUR
  | SEEK_END
  deriving DecidableEq

namespace OpenedFile

def read (f : OpenedFile) (fd : Descriptor) (count : Nat) : Descriptor × Bytes :=
  let available := (f.contents.drop fd.offset).take count
  let bytes := available.take (max 1 (f.schedule fd.reads))
  (⟨fd.offset + bytes.length, fd.reads + 1⟩, bytes)

/-- Where a seek from a current position leads, if the position is a legal
offset. -/
def target (f : OpenedFile) (cur : Nat) (offset : Int) (whence : Whence) : Option Nat :=
  let position : Int := match whence with
    | .SEEK_SET => offset
    | .SEEK_CUR => cur + offset
    | .SEEK_END => f.contents.length + offset
  if 0 ≤ position ∧ position ≤ f.offsetLimit then some position.toNat else none

def lseek (f : OpenedFile) (fd : Descriptor) (offset : Int) (whence : Whence) : Option (Descriptor × Nat) :=
  (f.target fd.offset offset whence).map fun position => (⟨position, fd.reads⟩, position)

/-- A write to a descriptor that was opened with O_RDONLY fails. -/
def write (_ : Descriptor) (_ : Bytes) : Int := -1

end OpenedFile

/-- The struct ro_file_st and its descriptor's state. -/
structure RoFile where
  fd : Descriptor
  buf : Bytes
  bufPos : Nat
  bufIndex : Nat
  bufEnd : Nat

namespace RoFile

def RO_FILE_BUF_LEN : Nat := 512

def roOpen : RoFile := ⟨⟨0, 0⟩, List.replicate RO_FILE_BUF_LEN 0, 0, 0, 0⟩

/-- The int argument is compared as it is; memcpy takes it as a size_t, so a
negative one runs out of both buffers. -/
def flushBuffer (file : RoFile) (amount : Int) : Run (RoFile × Bytes) :=
  let buffered : Int := (file.bufEnd : Int) - file.bufIndex
  let bytesToFlush := if amount > buffered then buffered else amount
  if bytesToFlush < 0 then .error .badAccess
  else
    let n := bytesToFlush.toNat
    .ok ({ file with bufIndex := file.bufIndex + n }, (file.buf.drop file.bufIndex).take n)

/-- The read loop of fill_buffer. -/
def fillLoop (f : OpenedFile) : Nat → RoFile → Nat → Run (RoFile × Nat)
  | 0, _, _ => .error .outOfFuel
  | fuel + 1, file, bytesRead =>
      if file.bufEnd < RO_FILE_BUF_LEN then
        let (fd, bytes) := f.read file.fd (RO_FILE_BUF_LEN - file.bufEnd)
        if bytes.length = 0 then .ok ({ file with fd := fd }, bytesRead)
        else
          let buf := file.buf.take file.bufEnd ++ bytes ++ file.buf.drop (file.bufEnd + bytes.length)
          fillLoop f fuel { file with fd := fd, buf := buf, bufEnd := file.bufEnd + bytes.length }
            (bytesRead + bytes.length)
      else .ok (file, bytesRead)

def fillBuffer (f : OpenedFile) (file : RoFile) : Run (RoFile × Nat) :=
  fillLoop f (RO_FILE_BUF_LEN + 1) { file with bufPos := file.fd.offset, bufIndex := 0, bufEnd := 0 } 0

/-- The while loop of ro_read; each refill moves the descriptor on or ends it. -/
def readLoop (f : OpenedFile) (len : Nat) : Nat → RoFile → Bytes → Run (RoFile × Bytes)
  | 0, _, _ => .error .outOfFuel
  | fuel + 1, file, copied =>
      if copied.length ≠ len then do
        let (file, numFilled) ← fillBuffer f file
        if numFilled = 0 then return (file, copied)
        else
          let (file, bytes) ← flushBuffer file (toInt (len - copied.length))
          readLoop f len fuel file (copied ++ bytes)
      else return (file, copied)

def roRead (f : OpenedFile) (file : RoFile) (len : Nat) : Run (RoFile × Bytes) := do
  let (file, bytes) ← flushBuffer file (toInt len)
  readLoop f len (f.contents.length + 2) file bytes

def roTell (file : RoFile) : Nat := file.bufPos + file.bufIndex

def roSeek (f : OpenedFile) (file : RoFile) (offset : Int) (whence : Whence) : RoFile × Int :=
  match f.lseek file.fd offset whence with
  | none => (file, 1)
  | some (fd, newPos) => ({ file with fd := fd, bufPos := newPos, bufIndex := 0, bufEnd := 0 }, 0)

def roClose (file : RoFile) (osCloses : Bool) : Int :=
  let ret : Int :=
    if 0 < file.bufEnd then
      if OpenedFile.write file.fd (file.buf.take file.bufEnd) ≠ (file.bufEnd : Int) then -1 else 0
    else 0
  if osCloses then ret else -1

inductive Op
  | read (len : Nat)
  | tell
  | seek (offset : Int) (whence : Whence)

inductive Reply
  | bytes (bytes : Bytes)
  | position (pos : Nat)
  | status (ret : Int)
  deriving DecidableEq

def step (f : OpenedFile) (file : RoFile) : Op → Run (RoFile × Reply)
  | .read len => do
      let (file, bytes) ← roRead f file len
      return (file, .bytes bytes)
  | .tell => return (file, .position file.roTell)
  | .seek offset whence =>
      let (file, ret) := roSeek f file offset whence
      return (file, .status ret)

/-- From ro_open to ro_close: the replies of the calls between, and the result
of closing. -/
def session (f : OpenedFile) (ops : List Op) (osCloses : Bool) : Run (List Reply × Int) := do
  let (file, replies) ← Simulation.run (step f) roOpen ops
  return (replies, file.roClose osCloses)

/-- The unbuffered file: its contents and one position. -/
def plainStep (f : OpenedFile) (pos : Nat) : Op → Run (Nat × Reply)
  | .read len =>
      let bytes := (f.contents.drop pos).take len
      return (pos + bytes.length, .bytes bytes)
  | .tell => return (pos, .position pos)
  | .seek offset whence =>
      match f.target pos offset whence with
      | none => return (pos, .status 1)
      | some newPos => return (newPos, .status 0)

def plainSession (f : OpenedFile) (ops : List Op) (osCloses : Bool) : Run (List Reply × Int) := do
  let (_, replies) ← Simulation.run (plainStep f) 0 ops
  return (replies, if osCloses then 0 else -1)

end RoFile

end SearchEngine
