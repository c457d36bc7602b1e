import SearchEngine.Run
import SearchEngine.Library.FileImage
import SearchEngine.Library.Program

namespace SearchEngine

inductive FileOp
  | create
  | openRead
  | seek (offset : Int)
  | read (n : Nat)
  | write (bytes : Bytes)
  | sync
  | size
  | close
  | unlink

inductive FileReply
  | failed
  | done
  | data (bytes : Bytes)
  | size (n : Nat)

abbrev FileProgram (α : Type) := Program FileOp FileReply Fault α

/-- A file and the one stream on it, on a disk where every operation succeeds
that can. -/
structure OpenFile where
  image : FileImage
  pos : Nat
  linked : Bool

/-- Reading past the end fails, as does seeking to a negative offset. -/
def OpenFile.handle (op : FileOp) (f : OpenFile) : FileReply × OpenFile :=
  match op with
  | .create => (.done, ⟨.empty, 0, true⟩)
  | .openRead => if f.linked then (.done, { f with pos := 0 }) else (.failed, f)
  | .seek offset => if 0 ≤ offset then (.done, { f with pos := offset.toNat }) else (.failed, f)
  | .read n =>
      if f.pos + n ≤ f.image.length then (.data (f.image.slice f.pos n), { f with pos := f.pos + n })
      else (.failed, f)
  | .write bytes => (.done, { f with image := f.image.patch f.pos bytes, pos := f.pos + bytes.length })
  | .sync => (.done, f)
  | .size => (.size f.image.length, f)
  | .close => (.done, f)
  | .unlink => (.done, { f with linked := false })

namespace FileProgram

open Program OpenFile

variable {α β : Type}

def succeeds (op : FileOp) : FileProgram Bool := do
  match ← perform op with
  | .done => return true
  | _ => return false

def fseek (offset : Int) : FileProgram Bool := succeeds (.seek offset)

def fwrite (bytes : Bytes) : FileProgram Bool := succeeds (.write bytes)

def fread (n : Nat) : FileProgram (Option Bytes) := do
  match ← perform (.read n) with
  | .data bytes => return some bytes
  | _ => return none

def fileSize : FileProgram Nat := do
  match ← perform .size with
  | .size n => return n
  | _ => .fail .verify333

def ofRun : Run α → FileProgram α
  | .ok a => pure a
  | .error e => .fail e

def verify333 (cond : Bool) : FileProgram Unit := ofRun (SearchEngine.verify333 cond)

def freadVerified (n : Nat) : FileProgram Bytes := do
  match ← fread n with
  | some bytes => return bytes
  | none => .fail .verify333

def fseekVerified (offset : Int) : FileProgram Unit := do
  verify333 (← fseek offset)

def addInt (a b : Int) : FileProgram Int := ofRun (intSum a b)

@[simp]
theorem run_fseek (offset : Int) (f : OpenFile) :
    (fseek offset).run handle f =
      .ok (decide (0 ≤ offset), if 0 ≤ offset then { f with pos := offset.toNat } else f) := by
  simp only [fseek, succeeds, run_bind, run_perform, handle]
  split <;> rename_i h <;> simp [h]

@[simp]
theorem run_fwrite (bytes : Bytes) (f : OpenFile) :
    (fwrite bytes).run handle f =
      .ok (true, { f with image := f.image.patch f.pos bytes, pos := f.pos + bytes.length }) := (rfl)

theorem run_fread {f : OpenFile} {bytes : Bytes} (h : f.image.Holds f.pos bytes) (hne : bytes ≠ []) :
    (fread bytes.length).run handle f = .ok (some bytes, { f with pos := f.pos + bytes.length }) := by
  simp only [fread, run_bind, run_perform, handle, h.le_length hne, if_true, h.slice]
  rfl

@[simp]
theorem run_ofRun_ok (a : α) (f : OpenFile) : (ofRun (.ok a)).run handle f = .ok (a, f) := (rfl)

@[simp]
theorem run_verify333 (f : OpenFile) : (verify333 true).run handle f = .ok ((), f) := (rfl)

@[simp]
theorem run_create (f : OpenFile) : (succeeds .create).run handle f = .ok (true, ⟨.empty, 0, true⟩) := (rfl)

@[simp]
theorem run_sync (f : OpenFile) : (succeeds .sync).run handle f = .ok (true, f) := (rfl)

@[simp]
theorem run_close (f : OpenFile) : (succeeds .close).run handle f = .ok (true, f) := (rfl)

theorem run_freadVerified {f : OpenFile} {bytes : Bytes} {n : Nat} (h : f.image.Holds f.pos bytes)
    (hlen : bytes.length = n) (hn : n ≠ 0) :
    (freadVerified n).run handle f = .ok (bytes, { f with pos := f.pos + n }) := by
  subst hlen
  rw [freadVerified, run_bind, run_fread h (List.length_pos_iff.mp (Nat.pos_of_ne_zero hn))]
  rfl

theorem run_fseekVerified {offset : Int} (h : 0 ≤ offset) (f : OpenFile) :
    (fseekVerified offset).run handle f = .ok ((), { f with pos := offset.toNat }) := by
  simp [fseekVerified, h, verify333]

theorem run_addInt {a b : Int} (ha : 0 ≤ a) (hb : 0 ≤ b) (h : a + b < 2 ^ 31) (f : OpenFile) :
    (addInt a b).run handle f = .ok (a + b, f) := by
  rw [addInt, intSum_eq (by omega) h, run_ofRun_ok]

theorem run_addInt_eq (a b : Int) (f : OpenFile) :
    (addInt a b).run handle f =
      if -INT_MAX - 1 ≤ a + b ∧ a + b ≤ INT_MAX then .ok (a + b, f) else .error .signedOverflow := by
  rw [addInt, intSum]
  split <;> rfl

theorem addInt_of_run {a b c : Int} {f f' : OpenFile} (h : (addInt a b).run handle f = .ok (c, f')) :
    c = a + b ∧ -2147483648 ≤ c ∧ c ≤ 2147483647 ∧ f = f' := by
  have hmax : (INT_MAX : Int) = 2147483647 := rfl
  rw [run_addInt_eq] at h
  split at h
  · obtain ⟨rfl, rfl⟩ := Prod.mk.inj (Except.ok.inj h)
    exact ⟨rfl, by omega, by omega, rfl⟩
  · cases h

theorem run_subInt {a b : Int} (hb : 0 ≤ b) (hab : b ≤ a) (h : a < 2 ^ 31) (f : OpenFile) :
    (addInt a (-b)).run handle f = .ok (a - b, f) := by
  rw [addInt, intSum_eq (by omega) (by omega), run_ofRun_ok, Int.sub_eq_add_neg]

/-- The program returns a value, wherever the file is positioned, and leaves
its bytes alone. -/
def Returns (image : FileImage) (p : FileProgram α) (a : α) : Prop :=
  ∀ pos linked, ∃ pos', p.run handle ⟨image, pos, linked⟩ = .ok (a, ⟨image, pos', linked⟩)

/-- The program returns a value and its only effect is on these bytes. -/
def Writes (off : Nat) (bytes : Bytes) (p : FileProgram α) (a : α) : Prop :=
  ∀ image pos linked, ∃ pos',
    p.run handle ⟨image, pos, linked⟩ = .ok (a, ⟨image.patch off bytes, pos', linked⟩)

end FileProgram

end SearchEngine
