import SearchEngine.WrittenIndex

/-! The single byte writes behind what a program leaves in a file. -/

namespace SearchEngine

namespace FileImage

def byteWrites : Nat → List UInt8 → List (Nat × UInt8)
  | _, [] => []
  | off, b :: bs => (off, b) :: byteWrites (off + 1) bs

def replay (image : FileImage) (ws : List (Nat × UInt8)) : FileImage :=
  ws.foldl (fun image w => image.patch w.1 [w.2]) image

theorem replay_append (image : FileImage) (vs ws : List (Nat × UInt8)) :
    image.replay (vs ++ ws) = (image.replay vs).replay ws := List.foldl_append

theorem replay_byteWrites (image : FileImage) (off : Nat) (bs : List UInt8) :
    image.replay (byteWrites off bs) = image.patch off bs := by
  induction bs generalizing image off with
  | nil => exact (patch_nil image off).symm
  | cons b bs ih =>
      have hfirst := patch_append image off [b] bs
      rw [List.length_singleton, List.singleton_append] at hfirst
      rw [← hfirst, ← ih]
      rfl

theorem take_byteWrites (off k : Nat) (bs : List UInt8) : (byteWrites off bs).take k = byteWrites off (bs.take k) := by
  induction bs generalizing off k with
  | nil => simp [byteWrites]
  | cons b bs ih =>
      cases k with
      | zero => rfl
      | succ k => simp only [byteWrites, List.take_succ_cons, ih]

theorem replay_contents_of_lt {lo i : Nat} {ws : List (Nat × UInt8)} (h : ∀ w ∈ ws, lo ≤ w.1) (hi : i < lo)
    (image : FileImage) : (image.replay ws).contents i = image.contents i := by
  induction ws generalizing image with
  | nil => rfl
  | cons w ws ih =>
      have hw := h w (by simp)
      rw [replay, List.foldl_cons, ← replay, ih fun v hv => h v (by simp [hv])]
      exact patch_contents_of_lt (by omega)

/-- A place that is written to holds the same byte afterwards, whatever was in
the file before. -/
theorem replay_contents_of_mem {i : Nat} {ws : List (Nat × UInt8)} (h : ∃ w ∈ ws, w.1 = i) :
    ∃ b, ∀ image : FileImage, (image.replay ws).contents i = b := by
  induction ws with
  | nil => simp at h
  | cons w ws ih =>
      by_cases hlater : ∃ v ∈ ws, v.1 = i
      · obtain ⟨b, hb⟩ := ih hlater
        exact ⟨b, fun image => hb _⟩
      · have hw : w.1 = i := by
          obtain ⟨v, hv, hvi⟩ := h
          rcases List.mem_cons.mp hv with rfl | hv
          · exact hvi
          · exact absurd ⟨v, hv, hvi⟩ hlater
        refine ⟨w.2, ?_⟩
        intro image
        have hrest : ∀ (ws : List (Nat × UInt8)) (image : FileImage), (∀ v ∈ ws, v.1 ≠ i) →
            (image.replay ws).contents i = image.contents i := by
          intro ws
          induction ws with
          | nil => exact fun _ _ => rfl
          | cons v ws ih =>
              intro image hne
              rw [replay, List.foldl_cons, ← replay, ih _ fun u hu => hne u (by simp [hu])]
              have hv := hne v (by simp)
              rcases Nat.lt_or_gt_of_ne hv with hlt | hgt
              · exact patch_contents_of_le hlt
              · exact patch_contents_of_lt hgt
        rw [replay, List.foldl_cons, ← replay, hrest ws _ fun v hv hvi => hlater ⟨v, hv, hvi⟩]
        simp [patch, hw]

end FileImage

namespace FileProgram

open Program OpenFile FileImage

variable {α β : Type}

def opWrites (op : FileOp) (f : OpenFile) : List (Nat × UInt8) :=
  match op with
  | .write bytes => byteWrites f.pos bytes
  | _ => []

/-- The byte writes that a program issues, in order. -/
def writes : FileProgram α → OpenFile → List (Nat × UInt8)
  | .done _, _ => []
  | .fail _, _ => []
  | .call op next, f => opWrites op f ++ writes (next (handle op f).1) (handle op f).2

theorem handle_seek (offset : Int) (f : OpenFile) :
    (handle (.seek offset) f).2 = if 0 ≤ offset then { f with pos := offset.toNat } else f := by
  rw [handle]
  split <;> rfl

theorem writes_eq_trace (p : FileProgram α) (f : OpenFile) : writes p f = p.trace handle opWrites f := by
  induction p generalizing f with
  | done a => rfl
  | fail e => rfl
  | call op next ih => rw [writes, ih, trace]

theorem writes_bind_ok {x : FileProgram α} {f f' : OpenFile} {a : α} (h : x.run handle f = .ok (a, f'))
    (k : α → FileProgram β) : writes (x >>= k) f = writes x f ++ writes (k a) f' := by
  rw [writes_eq_trace, trace_bind_ok handle h, ← writes_eq_trace, ← writes_eq_trace]

/-- The operations that do not look at the file, and those that do not change
it. -/
def Places : FileOp → Prop
  | .seek _ | .write _ => True
  | _ => False

def Inspects : FileOp → Prop
  | .seek _ | .read _ => True
  | _ => False

theorem Places.cases {op : FileOp} (h : Places op) : (∃ offset, op = .seek offset) ∨ ∃ bytes, op = .write bytes := by
  cases op with
  | seek offset => exact .inl ⟨offset, rfl⟩
  | write bytes => exact .inr ⟨bytes, rfl⟩
  | create | openRead | read | sync | size | close | unlink => exact h.elim

abbrev Blind (p : FileProgram α) : Prop := Only Places p

theorem Blind.replay {p : FileProgram α} (hp : Blind p) {f f' : OpenFile} {a : α}
    (h : p.run handle f = .ok (a, f')) : f'.image = f.image.replay (writes p f) := by
  induction hp generalizing f with
  | done b =>
      obtain rfl := (Prod.mk.inj (Except.ok.inj h)).2
      rfl
  | fail e => cases h
  | call hop _ ih =>
      rw [ih _ h, writes, replay_append]
      congr 1
      rcases hop.cases with ⟨offset, rfl⟩ | ⟨bytes, rfl⟩
      · rw [handle_seek]
        split <;> rfl
      · exact (replay_byteWrites _ _ _).symm

theorem Blind.writes_eq {p : FileProgram α} (hp : Blind p) (image image' : FileImage) (pos : Nat) (linked : Bool) :
    writes p ⟨image, pos, linked⟩ = writes p ⟨image', pos, linked⟩ := by
  induction hp generalizing image image' pos with
  | done b => rfl
  | fail e => rfl
  | call hop _ ih =>
      rcases hop.cases with ⟨offset, rfl⟩ | ⟨bytes, rfl⟩
      · have hreply : (handle (.seek offset) ⟨image, pos, linked⟩).1 =
            (handle (.seek offset) ⟨image', pos, linked⟩).1 := by
          by_cases hneg : 0 ≤ offset <;> simp [handle, hneg]
        rw [writes, writes, handle_seek, handle_seek, hreply]
        split
        · exact congrArg _ (ih _ _ _ _)
        · exact congrArg _ (ih _ _ _ _)
      · exact congrArg (byteWrites pos bytes ++ ·) (ih _ _ _ _)

/-- A program that changes certain bytes of every file, and does not read, has
written to no place before them. -/
theorem Blind.le_of_mem {p : FileProgram α} (hp : Blind p) {off : Nat} {bytes : Bytes} {a : α}
    (h : Writes off bytes p a) (f : OpenFile) : ∀ w ∈ writes p f, off ≤ w.1 := by
  intro w hw
  by_contra hlt
  obtain ⟨b, hb⟩ := replay_contents_of_mem (i := w.1) ⟨w, hw, rfl⟩
  let image' : FileImage := ⟨0, fun _ => b + 1⟩
  obtain ⟨pos', hrun⟩ := h image' f.pos f.linked
  have hreplay := hp.replay hrun
  rw [hp.writes_eq image' f.image] at hreplay
  have hcontents := congrArg (fun image : FileImage => image.contents w.1) hreplay
  simp only [patch_contents_of_lt (by omega : w.1 < off), hb] at hcontents
  simp [image'] at hcontents

theorem only_fseek {Q : FileOp → Prop} {offset : Int} (h : Q (.seek offset)) : Only Q (fseek offset) :=
  .call h fun r => by cases r <;> exact .done _

theorem only_fwrite {Q : FileOp → Prop} {bytes : Bytes} (h : Q (.write bytes)) : Only Q (fwrite bytes) :=
  .call h fun r => by cases r <;> exact .done _

theorem only_fread {Q : FileOp → Prop} {n : Nat} (h : Q (.read n)) : Only Q (fread n) :=
  .call h fun r => by cases r <;> exact .done _

theorem only_ofRun {Q : FileOp → Prop} (x : Run α) : Only Q (ofRun x) := by
  cases x with
  | ok a => exact .done a
  | error e => exact .fail e

theorem only_addInt {Q : FileOp → Prop} (a b : Int) : Only Q (addInt a b) := only_ofRun _

theorem writes_inspects {p : FileProgram α} (hp : Only Inspects p) (f : OpenFile) : writes p f = [] := by
  rw [writes_eq_trace]
  apply hp.trace_eq_nil
  intro op f hop
  cases op with
  | write bytes => exact hop.elim
  | create | openRead | seek | read | sync | size | close | unlink => rfl

theorem writes_inspects_bind {x : FileProgram α} (hx : Only Inspects x) {f f' : OpenFile} {a : α}
    (h : x.run handle f = .ok (a, f')) (k : α → FileProgram β) : writes (x >>= k) f = writes (k a) f' := by
  rw [writes_bind_ok h, writes_inspects hx, List.nil_append]

end FileProgram

end SearchEngine
