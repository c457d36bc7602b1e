import SearchEngine.HttpServer
import SearchEngine.LayoutStructs

namespace SearchEngine

/-- The outcomes of a write: at most so many bytes taken, EAGAIN or EINTR, the
return value zero, or another error. -/
inductive WriteOutcome
  | bytes (n : Nat) (pos : 0 < n)
  | again
  | zero
  | failed

namespace HttpUtils

/-- The loop of WrappedWrite from one call of write on. The descriptor has
taken the accepted bytes so far. -/
def wrappedWrite (outcomes : Nat → WriteOutcome) (buf : Bytes) (writeLen : Int) :
    Nat → Nat → Int → Bytes → Run (Int × Bytes)
  | 0, _, _, _ => .error .outOfFuel
  | fuel + 1, call, writtenSoFar, accepted =>
      if writtenSoFar < writeLen then
        match outcomes call with
        | .again => wrappedWrite outcomes buf writeLen fuel (call + 1) writtenSoFar accepted
        | .failed => return (writtenSoFar, accepted)
        | .zero => return (writtenSoFar, accepted)
        | .bytes n _ => do
            let taken := ((buf.drop writtenSoFar.toNat).take (writeLen - writtenSoFar).toNat).take n
            let res := int32 taken.length
            let writtenSoFar ← intSum writtenSoFar res
            wrappedWrite outcomes buf writeLen fuel (call + 1) writtenSoFar (accepted ++ taken)
      else return (writtenSoFar, accepted)

section

variable {outcomes : Nat → WriteOutcome} {buf : Bytes}

theorem take_next {w n : Nat} (hw : w < buf.length) :
    ((buf.drop w).take (buf.length - w)).take n = (buf.drop w).take (min n (buf.length - w)) ∧
      ((buf.drop w).take (min n (buf.length - w))).length = min n (buf.length - w) ∧
      buf.take w ++ (buf.drop w).take (min n (buf.length - w)) = buf.take (w + min n (buf.length - w)) := by
  refine ⟨by rw [List.take_take], ?_, by rw [List.take_add]⟩
  rw [List.length_take, List.length_drop]
  omega

/-- One turn that writes: the bytes after those written are taken. -/
theorem wrappedWrite_bytes {fuel call w n : Nat} {hn : 0 < n} (hlen : buf.length < 2 ^ 31) (hw : w < buf.length)
    (hcall : outcomes call = .bytes n hn) :
    wrappedWrite outcomes buf buf.length (fuel + 1) call w (buf.take w) =
      wrappedWrite outcomes buf buf.length fuel (call + 1) ((w + min n (buf.length - w) : Nat) : Int)
        (buf.take (w + min n (buf.length - w))) := by
  obtain ⟨htaken, hlength, happ⟩ := take_next (n := n) hw
  have hrest : ((buf.length : Int) - (w : Int)).toNat = buf.length - w := by omega
  have hres : int32 ((min n (buf.length - w) : Nat) : Int) = (min n (buf.length - w) : Nat) :=
    int32_eq_natCast.mpr (by omega)
  have hsum : intSum (w : Int) ((min n (buf.length - w) : Nat) : Int) =
      .ok ((w + min n (buf.length - w) : Nat) : Int) := by
    rw [intSum_eq (by omega) (by omega)]
    push_cast
    rfl
  rw [wrappedWrite, if_pos (by omega), hcall]
  simp only [Int.toNat_natCast, hrest, htaken, hlength, hres, hsum, Run.ok_bind, happ]

/-- The loop ends with a first part of the buffer written, and stops short of
the whole only on an error or a zero. The measure is the number of calls that
may still be interrupted and of bytes left. -/
theorem wrappedWrite_spec {bound : Nat} (hbound : ∀ i, bound ≤ i → outcomes i ≠ .again) (hlen : buf.length < 2 ^ 31)
    (m call w : Nat) (hm : m = (bound - call) + (buf.length - w)) (hw : w ≤ buf.length) :
    ∃ k, k ≤ buf.length ∧ (k < buf.length → ∃ i, outcomes i = .zero ∨ outcomes i = .failed) ∧
      ∀ fuel, m < fuel →
        wrappedWrite outcomes buf buf.length fuel call w (buf.take w) = .ok ((k : Int), buf.take k) := by
  induction m using Nat.strong_induction_on generalizing call w with
  | _ m ih =>
      by_cases hall : buf.length ≤ w
      · refine ⟨w, hw, fun h => by omega, fun fuel hfuel => ?_⟩
        obtain ⟨fuel, rfl⟩ := Nat.exists_eq_succ_of_ne_zero (Nat.ne_of_gt (Nat.zero_lt_of_lt hfuel))
        rw [wrappedWrite, if_neg (by omega)]
        rfl
      · have hlt : (w : Int) < buf.length := by omega
        cases hcall : outcomes call with
        | again =>
            have hearly : call < bound := by
              by_contra hlate
              exact hbound call (by omega) hcall
            obtain ⟨k, hk, hshort, hrun⟩ := ih _ (by omega) (call + 1) w rfl hw
            refine ⟨k, hk, hshort, fun fuel hfuel => ?_⟩
            obtain ⟨fuel, rfl⟩ := Nat.exists_eq_succ_of_ne_zero (Nat.ne_of_gt (Nat.zero_lt_of_lt hfuel))
            rw [wrappedWrite, if_pos hlt, hcall]
            exact hrun fuel (by omega)
        | zero =>
            refine ⟨w, hw, fun _ => ⟨call, .inl hcall⟩, fun fuel hfuel => ?_⟩
            obtain ⟨fuel, rfl⟩ := Nat.exists_eq_succ_of_ne_zero (Nat.ne_of_gt (Nat.zero_lt_of_lt hfuel))
            rw [wrappedWrite, if_pos hlt, hcall]
            rfl
        | failed =>
            refine ⟨w, hw, fun _ => ⟨call, .inr hcall⟩, fun fuel hfuel => ?_⟩
            obtain ⟨fuel, rfl⟩ := Nat.exists_eq_succ_of_ne_zero (Nat.ne_of_gt (Nat.zero_lt_of_lt hfuel))
            rw [wrappedWrite, if_pos hlt, hcall]
            rfl
        | bytes n hn =>
            obtain ⟨k, hk, hshort, hrun⟩ :=
              ih _ (by omega) (call + 1) (w + min n (buf.length - w)) rfl (by omega)
            refine ⟨k, hk, hshort, fun fuel hfuel => ?_⟩
            obtain ⟨fuel, rfl⟩ := Nat.exists_eq_succ_of_ne_zero (Nat.ne_of_gt (Nat.zero_lt_of_lt hfuel))
            rw [Nat.succ_eq_add_one, wrappedWrite_bytes hlen (by omega) hcall]
            exact hrun fuel (by omega)

end

end HttpUtils

namespace HttpConnection

open HttpUtils

def writeResponse (outcomes : Nat → WriteOutcome) (fuel : Nat) (response : HttpResponse) : Run (Bool × Bytes) := do
  let str := response.generateResponseString
  let (res, accepted) ← wrappedWrite outcomes str (int32 str.length) fuel 0 0 []
  return (res == int32 str.length, accepted)

/-- A response is delivered up to some byte, in order, and the result tells
whether that is all of it. -/
theorem writeResponse_delivers (outcomes : Nat → WriteOutcome)
    (hretries : ∃ bound, ∀ i, bound ≤ i → outcomes i ≠ .again)
    (response : HttpResponse) (hlen : response.generateResponseString.length < 2 ^ 31) :
    ∃ k enough, k ≤ response.generateResponseString.length ∧
      (k < response.generateResponseString.length → ∃ i, outcomes i = .zero ∨ outcomes i = .failed) ∧
      ∀ fuel, enough < fuel →
        wrappedWrite outcomes response.generateResponseString (int32 response.generateResponseString.length) fuel 0 0
            [] = .ok ((k : Int), response.generateResponseString.take k) ∧
        writeResponse outcomes fuel response =
          .ok (decide (k = response.generateResponseString.length), response.generateResponseString.take k) := by
  obtain ⟨bound, hbound⟩ := hretries
  obtain ⟨k, hk, hshort, hrun⟩ := wrappedWrite_spec hbound hlen _ 0 0 rfl (Nat.zero_le _)
  have hint : int32 (response.generateResponseString.length : Int) = response.generateResponseString.length :=
    int32_eq_natCast.mpr hlen
  refine ⟨k, bound + response.generateResponseString.length, hk, hshort, fun fuel hfuel => ?_⟩
  have hwrite := hrun fuel (by omega)
  rw [List.take_zero, ← hint] at hwrite
  change wrappedWrite outcomes response.generateResponseString (int32 response.generateResponseString.length)
    fuel 0 0 [] = .ok ((k : Int), response.generateResponseString.take k) at hwrite
  refine ⟨hwrite, ?_⟩
  have hsame : ((k : Int) == int32 response.generateResponseString.length) =
      decide (k = response.generateResponseString.length) := by
    rw [hint, Bool.eq_iff_iff]
    simp
  simp only [writeResponse, hwrite, Run.ok_bind, hsame]
  rfl

/-- An interruption, five bytes, and then the peer is gone. -/
def dropped : Nat → WriteOutcome
  | 0 => .again
  | 1 => .bytes 5 (by decide)
  | _ => .failed

def pong : HttpResponse := ⟨ascii ['H', 'T', 'T', 'P'], 200, ascii ['O', 'K'], [], ascii ['p', 'o', 'n', 'g']⟩

theorem writeResponse_delivers_dropped :
    (∀ i, 1 ≤ i → dropped i ≠ .again) ∧ pong.generateResponseString.length < 2 ^ 31 ∧
      ∃ k enough, k ≤ pong.generateResponseString.length ∧ ∀ fuel, enough < fuel →
        writeResponse dropped fuel pong =
          .ok (decide (k = pong.generateResponseString.length), pong.generateResponseString.take k) := by
  have hretries : ∀ i, 1 ≤ i → dropped i ≠ .again := by
    intro i hi
    match i with
    | 1 => simp [dropped]
    | i + 2 => simp [dropped]
  have hlen : pong.generateResponseString.length < 2 ^ 31 := by decide +kernel
  obtain ⟨k, enough, hk, _, hrun⟩ := writeResponse_delivers dropped ⟨1, hretries⟩ pong hlen
  exact ⟨hretries, hlen, k, enough, hk, fun fuel hfuel => (hrun fuel hfuel).2⟩

end HttpConnection

end SearchEngine
