import SearchEngine.CrashAtomicity

/-! A stream with a buffer, on a disk whose operations may fail. -/

namespace SearchEngine

/-- Which operations fail: of the flushes, seeks and reads, by the order in
which they are made, and the flush of fclose. -/
structure DiskFailures where
  action : Nat → Bool
  close : Bool

/-- The same disk, but for the failures before fclose. -/
def DiskFailures.quiet (d : DiskFailures) : DiskFailures := { d with action := fun _ => false }

/-- The file on the disk and the stream on it. The buffered bytes are the ones
before the position. -/
structure BufferedFile where
  image : FileImage
  buffer : Bytes
  pos : Nat
  linked : Bool
  clock : Nat

namespace BufferedFile

open FileProgram

def tick (f : BufferedFile) : BufferedFile := { f with clock := f.clock + 1 }

/-- What a flush leaves on the disk. -/
def flushed (f : BufferedFile) : FileImage := f.image.patch (f.pos - f.buffer.length) f.buffer

/-- A flush that fails leaves the disk as it is. -/
def flush (d : DiskFailures) (f : BufferedFile) : Option BufferedFile :=
  if f.buffer = [] then some f
  else if d.action f.clock then none
  else some { f with image := f.flushed, buffer := [], clock := f.clock + 1 }

/-- A seek or a read comes after a flush, and fails where the flush does. -/
def afterFlush (d : DiskFailures) (f : BufferedFile) (act : BufferedFile → FileReply × BufferedFile) :
    FileReply × BufferedFile :=
  match f.flush d with
  | none => (.failed, f.tick)
  | some f => if d.action f.clock then (.failed, f.tick) else act f.tick

def handle (d : DiskFailures) (op : FileOp) (f : BufferedFile) : FileReply × BufferedFile :=
  match op with
  | .create => (.done, ⟨.empty, [], 0, true, f.clock⟩)
  | .openRead => if f.linked then (.done, { f with pos := 0, buffer := [] }) else (.failed, f)
  | .seek offset => f.afterFlush d fun f =>
      if 0 ≤ offset then (.done, { f with pos := offset.toNat }) else (.failed, f)
  | .read n => f.afterFlush d fun f =>
      if f.pos + n ≤ f.image.length then (.data (f.image.slice f.pos n), { f with pos := f.pos + n })
      else (.failed, f)
  | .write bytes => (.done, { f with buffer := f.buffer ++ bytes, pos := f.pos + bytes.length })
  | .sync => (.done, f)
  | .size => (.size f.image.length, f)
  | .close =>
      if f.buffer = [] then (.done, f)
      else if d.close then (.failed, { f with buffer := [] })
      else (.done, { f with image := f.flushed, buffer := [] })
  | .unlink => (.done, { f with linked := false })

/-- The flush fails, or what comes after it does. -/
def Stalls (d : DiskFailures) (f : BufferedFile) : Prop :=
  f.flush d = none ∨ ∃ f', f.flush d = some f' ∧ d.action f'.clock = true

def Fails (d : DiskFailures) (op : FileOp) (f : BufferedFile) : Prop := Inspects op ∧ f.Stalls d

variable {d : DiskFailures} {f : BufferedFile} {op : FileOp}

theorem flush_quiet (d : DiskFailures) (f : BufferedFile) :
    ∃ n, f.flush d.quiet = some ⟨f.flushed, [], f.pos, f.linked, n⟩ := by
  by_cases h : f.buffer = []
  · have hflushed : f.flushed = f.image := by
      rw [flushed, h, FileImage.patch_nil]
    exact ⟨f.clock, by rw [flush, if_pos h, hflushed, ← h]⟩
  · exact ⟨f.clock + 1, by simp [flush, h, DiskFailures.quiet]⟩

theorem afterFlush_quiet (d : DiskFailures) (f : BufferedFile) :
    ∃ n, ∀ act, f.afterFlush d.quiet act = act ⟨f.flushed, [], f.pos, f.linked, n⟩ := by
  obtain ⟨n, hflush⟩ := flush_quiet d f
  refine ⟨n + 1, ?_⟩
  intro act
  rw [afterFlush, hflush]
  rfl

theorem flush_eq_quiet {f' : BufferedFile} (h : f.flush d = some f') : f.flush d.quiet = some f' := by
  unfold flush at h ⊢
  split at h
  · next hempty => rwa [if_pos hempty]
  · next hbuffer =>
    rw [if_neg hbuffer]
    split at h
    · cases h
    · exact h

theorem afterFlush_of_not_stalls (h : ¬f.Stalls d) (act : BufferedFile → FileReply × BufferedFile) :
    f.afterFlush d act = f.afterFlush d.quiet act := by
  cases hflush : f.flush d with
  | none => exact absurd (.inl hflush) h
  | some f' =>
      have haction : d.action f'.clock = false := by
        by_contra hfails
        exact h (.inr ⟨f', hflush, by simpa using hfails⟩)
      simp only [afterFlush, hflush, flush_eq_quiet hflush, haction]
      rfl

theorem afterFlush_of_stalls (h : f.Stalls d) (act : BufferedFile → FileReply × BufferedFile) :
    (f.afterFlush d act).1 = .failed := by
  rcases h with hnone | ⟨f', hsome, hfails⟩
  · rw [afterFlush, hnone]
  · simp only [afterFlush, hsome, hfails, if_true]

theorem handle_of_not_fails (h : ¬Fails d op f) : handle d op f = handle d.quiet op f := by
  cases op with
  | seek offset =>
      rw [handle, handle, afterFlush_of_not_stalls fun hstalls => h ⟨trivial, hstalls⟩]
  | read n =>
      rw [handle, handle, afterFlush_of_not_stalls fun hstalls => h ⟨trivial, hstalls⟩]
  | create | openRead | write | sync | size | close | unlink => rfl

theorem not_stalls_quiet (d : DiskFailures) (f : BufferedFile) : ¬f.Stalls d.quiet := by
  obtain ⟨n, hflush⟩ := flush_quiet d f
  rintro (hnone | ⟨f', _, hfails⟩)
  · rw [hflush] at hnone
    cases hnone
  · cases hfails

theorem handle_of_fails (h : Fails d op f) : (handle d op f).1 = .failed := by
  cases op with
  | seek offset => exact afterFlush_of_stalls h.2 _
  | read n => exact afterFlush_of_stalls h.2 _
  | create | openRead | write | sync | size | close | unlink => exact h.1.elim

/-- The stream is at a place of the file that a flush would leave. -/
structure Shows (f : BufferedFile) (g : OpenFile) : Prop where
  room : f.buffer.length ≤ f.pos
  image : g.image = f.flushed
  pos : g.pos = f.pos
  linked : g.linked = f.linked

/-- The operations of a writer between fopen and fclose. -/
def Streams : FileOp → Prop
  | .seek _ | .read _ | .write _ | .sync => True
  | _ => False

theorem handle_shows {g : OpenFile} (hop : Streams op) (h : Shows f g) :
    (handle d.quiet op f).1 = (OpenFile.handle op g).1 ∧
      Shows (handle d.quiet op f).2 (OpenFile.handle op g).2 := by
  obtain ⟨image, pos, linked⟩ := g
  obtain ⟨hroom, rfl, rfl, rfl⟩ := h
  obtain ⟨n, hafter⟩ := afterFlush_quiet d f
  cases op with
  | seek offset =>
      simp only [handle, hafter, OpenFile.handle]
      by_cases hneg : 0 ≤ offset
      · simp only [hneg, if_true]
        exact ⟨trivial, Nat.zero_le _, (FileImage.patch_nil _ _).symm, rfl, rfl⟩
      · simp only [hneg, if_false]
        exact ⟨trivial, Nat.zero_le _, (FileImage.patch_nil _ _).symm, rfl, rfl⟩
  | read n =>
      simp only [handle, hafter, OpenFile.handle]
      by_cases hin : f.pos + n ≤ f.flushed.length
      · simp only [hin, if_true]
        exact ⟨trivial, Nat.zero_le _, (FileImage.patch_nil _ _).symm, rfl, rfl⟩
      · simp only [hin, if_false]
        exact ⟨trivial, Nat.zero_le _, (FileImage.patch_nil _ _).symm, rfl, rfl⟩
  | write bytes =>
      have happend := FileImage.patch_append f.image (f.pos - f.buffer.length) f.buffer bytes
      rw [Nat.sub_add_cancel hroom] at happend
      refine ⟨rfl, ?_, ?_, rfl, rfl⟩
      · simp only [handle, List.length_append]
        omega
      · have hstart : f.pos + bytes.length - (f.buffer ++ bytes).length = f.pos - f.buffer.length := by
          rw [List.length_append]
          omega
        simp only [handle, OpenFile.handle, flushed, hstart]
        exact happend
  | sync => exact ⟨rfl, hroom, rfl, rfl, rfl⟩
  | create | openRead | size | close | unlink => exact hop.elim

end BufferedFile

end SearchEngine
