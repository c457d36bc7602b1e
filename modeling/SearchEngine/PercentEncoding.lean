import SearchEngine.HttpUtils
import Mathlib.Tactic.IntervalCases

namespace SearchEngine.HttpUtils

/-- A hex digit and its value, in either letter case. -/
def HexDigit (b : UInt8) (n : Nat) : Prop :=
  (ascii "0123456789ABCDEF".toList)[n]? = some b ∨ (ascii "0123456789abcdef".toList)[n]? = some b

instance (b : UInt8) (n : Nat) : Decidable (HexDigit b n) := inferInstanceAs (Decidable (_ ∨ _))

/-- The two digits of a code. -/
def HexCode (x y c : UInt8) : Prop := ∃ m n, HexDigit x m ∧ HexDigit y n ∧ c.toNat = 16 * m + n

/-- The ways in which a character may be written. -/
inductive EncodesChar : UInt8 → Bytes → Prop
  | itself {c : UInt8} (hpercent : c ≠ 37) (hplus : c ≠ 43) : EncodesChar c [c]
  | plus : EncodesChar 32 [43]
  | code {x y c : UInt8} (hcode : HexCode x y c) : EncodesChar c [37, x, y]

/-- A percent-encoding, chosen for each character on its own. -/
inductive Encodes : Bytes → Bytes → Prop
  | nil : Encodes [] []
  | cons {c : UInt8} {e s rest : Bytes} (hlow : 32 ≤ c) (hhigh : c ≤ 127) (hchar : EncodesChar c e)
      (hrest : Encodes s rest) : Encodes (c :: s) (e ++ rest)

/-- Nothing in the string has a meaning for URIDecode. -/
structure Plain (str : Bytes) : Prop where
  noPlus : 43 ∉ str
  noCode : ∀ front x y back c, str = front ++ 37 :: x :: y :: back → HexCode x y c → ¬(32 ≤ c ∧ c ≤ 127)

theorem hexDigit_value {b : UInt8} {n : Nat} (h : HexDigit b n) :
    n < 16 ∧ isHexDigit (toupper b) = true ∧ (hexDigit (toupper b)).toNat = n := by
  have hn : n < 16 := by
    rcases h with h | h
    · exact (List.getElem?_eq_some_iff.mp h).1
    · exact (List.getElem?_eq_some_iff.mp h).1
  refine ⟨hn, ?_⟩
  interval_cases n <;> rcases h with h | h <;> obtain rfl := Option.some.inj h <;> decide

theorem hexDigit_of_isHexDigit {b : UInt8} (h : isHexDigit (toupper b) = true) :
    HexDigit b (hexDigit (toupper b)).toNat := by
  have hall : ∀ k < 256, isHexDigit (toupper (UInt8.ofNat k)) = true →
      HexDigit (UInt8.ofNat k) (hexDigit (toupper (UInt8.ofNat k))).toNat := by decide +kernel
  have hb := hall b.toNat b.toNat_lt
  rw [UInt8.ofNat_toNat] at hb
  exact hb h

theorem percentCode_eq_some {x y c : UInt8} :
    percentCode (toupper x) (toupper y) = some c ↔ HexCode x y c ∧ 32 ≤ c ∧ c ≤ 127 := by
  have hsum {m n : Nat} (hm : m < 16) (hn : n < 16) {a b : UInt8} (ha : a.toNat = m) (hb : b.toNat = n) :
      (16 * a + b).toNat = 16 * m + n := by
    rw [UInt8.toNat_add, UInt8.toNat_mul, ha, hb]
    change (16 * m % 2 ^ 8 + n) % 2 ^ 8 = _
    omega
  constructor
  · intro h
    rw [percentCode] at h
    split_ifs at h with hdigits
    obtain ⟨hx, hy⟩ := Bool.and_eq_true_iff.mp hdigits
    dsimp only at h
    split_ifs at h with hrange
    obtain rfl := Option.some.inj h
    have hdx := hexDigit_of_isHexDigit hx
    have hdy := hexDigit_of_isHexDigit hy
    refine ⟨⟨_, _, hdx, hdy, hsum (hexDigit_value hdx).1 (hexDigit_value hdy).1 rfl rfl⟩, ?_⟩
    simpa using hrange
  · rintro ⟨⟨m, n, hx, hy, hc⟩, hlow, hhigh⟩
    obtain ⟨hm, hxdigit, hxval⟩ := hexDigit_value hx
    obtain ⟨hn, hydigit, hyval⟩ := hexDigit_value hy
    have hcode : 16 * hexDigit (toupper x) + hexDigit (toupper y) = c := by
      rw [← UInt8.toNat_inj, hsum hm hn hxval hyval, hc]
    rw [percentCode, hxdigit, hydigit]
    simp [hcode, hlow, hhigh]

theorem decoded_cons {c : UInt8} (h : c ≠ 37) (rest : Bytes) :
    decoded (c :: rest) = (if c = 43 then 32 else c) :: decoded rest := by
  have hchar (c2 c3 : UInt8) : decodeChar c c2 c3 = (if c = 43 then 32 else c, false) := by
    unfold decodeChar
    by_cases hplus : c = 43
    · rw [if_pos hplus, if_pos hplus]
    · rw [if_neg hplus, if_pos h, if_neg hplus]
  match rest with
  | [] => simp [decoded, hchar]
  | [b] => simp [decoded, hchar]
  | b :: b' :: more => simp [decoded, hchar]

theorem decoded_code {x y c : UInt8} (h : percentCode (toupper x) (toupper y) = some c) (rest : Bytes) :
    decoded (37 :: x :: y :: rest) = c :: decoded rest := by
  have hchar : decodeChar 37 (toupper x) (toupper y) = (c, true) := by simp [decodeChar, h]
  rw [decoded, hchar]
  rfl

theorem decoded_percent {rest : Bytes}
    (h : ∀ x y more, rest = x :: y :: more → percentCode (toupper x) (toupper y) = none) :
    decoded (37 :: rest) = 37 :: decoded rest := by
  have hblank : decodeChar 37 32 32 = (37, false) := by decide
  match rest, h with
  | [], _ => simp [decoded, hblank]
  | [b], _ => simp [decoded, hblank]
  | x :: y :: more, h =>
      have hchar : decodeChar 37 (toupper x) (toupper y) = (37, false) := by simp [decodeChar, h x y more rfl]
      rw [decoded, hchar]
      rfl

theorem decoded_encodesChar {c : UInt8} {e : Bytes} (hlow : 32 ≤ c) (hhigh : c ≤ 127) (h : EncodesChar c e)
    (rest : Bytes) : decoded (e ++ rest) = c :: decoded rest := by
  cases h with
  | itself hpercent hplus => rw [List.singleton_append, decoded_cons hpercent, if_neg hplus]
  | plus => exact decoded_cons (by decide) rest
  | code hcode => exact decoded_code (percentCode_eq_some.mpr ⟨hcode, hlow, hhigh⟩) rest

theorem decoded_encodes {s e : Bytes} (h : Encodes s e) : decoded e = s := by
  induction h with
  | nil => rfl
  | cons hlow hhigh hchar _ ih => rw [decoded_encodesChar hlow hhigh hchar, ih]

theorem plain_cons_iff {c : UInt8} {str : Bytes} :
    Plain (c :: str) ↔ Plain str ∧ c ≠ 43 ∧
      (c = 37 → ∀ x y more, str = x :: y :: more → percentCode (toupper x) (toupper y) = none) := by
  constructor
  · rintro ⟨hplus, hcode⟩
    refine ⟨⟨fun h => hplus (List.mem_cons_of_mem c h), ?_⟩, fun h => hplus (by simp [h]), ?_⟩
    · intro front x y back c' h
      exact hcode (c :: front) x y back c' (by rw [h, List.cons_append])
    · rintro rfl x y more rfl
      rw [Option.eq_none_iff_forall_not_mem]
      intro c' hc'
      obtain ⟨hdigits, hrange⟩ := percentCode_eq_some.mp hc'
      exact hcode [] x y more c' rfl hdigits hrange
  · rintro ⟨⟨hplus, hcode⟩, hfirst, hstart⟩
    refine ⟨by simp [hplus, Ne.symm hfirst], ?_⟩
    intro front x y back c' h hdigits hrange
    cases front with
    | nil =>
        obtain ⟨rfl, rfl⟩ := List.cons.inj h
        have hnone := hstart rfl x y back rfl
        rw [percentCode_eq_some.mpr ⟨hdigits, hrange⟩] at hnone
        cases hnone
    | cons a front => exact hcode front x y back c' (List.cons.inj h).2 hdigits hrange

theorem length_decoded_le (str : Bytes) : (decoded str).length ≤ str.length := by
  fun_induction decoded str with
  | case1 c1 c2 c3 rest c escaped hchar ih1 ih2 =>
      simp only [List.length_cons] at ih2 ⊢
      split
      · omega
      · omega
  | case2 c1 rest _ ih => exact Nat.succ_le_succ ih
  | case3 => exact Nat.le_refl 0

theorem decoded_plain {str : Bytes} (h : Plain str) : decoded str = str := by
  induction str with
  | nil => rfl
  | cons c str ih =>
      obtain ⟨hrest, hplus, hstart⟩ := plain_cons_iff.mp h
      by_cases hc : c = 37
      · subst hc
        rw [decoded_percent (hstart rfl), ih hrest]
      · rw [decoded_cons hc, if_neg hplus, ih hrest]

/-- URIDecode changes nothing just when nothing has a meaning for it. -/
theorem decoded_eq_self {str : Bytes} : decoded str = str ↔ Plain str := by
  refine ⟨?_, decoded_plain⟩
  intro h
  induction str with
  | nil => exact ⟨by simp, by simp⟩
  | cons c str ih =>
      by_cases hc : c = 37
      · subst hc
        have hnone : ∀ x y more, str = x :: y :: more → percentCode (toupper x) (toupper y) = none := by
          rintro x y more rfl
          cases hcode : percentCode (toupper x) (toupper y) with
          | none => rfl
          | some c' =>
              -- an escape sequence is longer than what it stands for
              have hlen := congrArg List.length h
              have hle := length_decoded_le more
              rw [decoded_code hcode] at hlen
              simp only [List.length_cons] at hlen
              omega
        rw [decoded_percent hnone] at h
        exact plain_cons_iff.mpr ⟨ih (List.cons.inj h).2, by decide, fun _ => hnone⟩
      · rw [decoded_cons hc] at h
        obtain ⟨hfirst, hrest⟩ := List.cons.inj h
        refine plain_cons_iff.mpr ⟨ih hrest, ?_, fun h => absurd h hc⟩
        rintro rfl
        simp at hfirst

theorem uriDecode_eq_iff {str r : Bytes} (h : decoded str = r) : uriDecode str = .ok r ↔ str.length < 2 ^ 32 := by
  constructor
  · intro hok
    exact (uriDecode_iff str).mp ⟨r, hok⟩
  · intro hlen
    rw [uriDecode_eq hlen, h]

/-- URIDecode inverts every percent-encoding, and leaves a plain string alone,
as long as it comes to an end. -/
theorem uriDecode_inverts_iff (str : Bytes) :
    (∀ s, Encodes s str → (uriDecode str = .ok s ↔ str.length < 2 ^ 32)) ∧
    (Plain str → (uriDecode str = .ok str ↔ str.length < 2 ^ 32)) :=
  ⟨fun _ h => uriDecode_eq_iff (decoded_encodes h), fun h => uriDecode_eq_iff (decoded_plain h)⟩

theorem encodes_itself {s : Bytes} (h : ∀ c ∈ s, 32 ≤ c ∧ c ≤ 127 ∧ c ≠ 37 ∧ c ≠ 43) : Encodes s s := by
  induction s with
  | nil => exact .nil
  | cons c s ih =>
      obtain ⟨hlow, hhigh, hpercent, hplus⟩ := h c List.mem_cons_self
      exact .cons hlow hhigh (.itself hpercent hplus) (ih fun b hb => h b (List.mem_cons_of_mem c hb))

/-- 2^32 letters, which encode themselves: the loop goes on for ever. -/
theorem uriDecode_long : Encodes (List.replicate (2 ^ 32) 97) (List.replicate (2 ^ 32) 97) ∧
    uriDecode (List.replicate (2 ^ 32) 97) ≠ .ok (List.replicate (2 ^ 32) 97) := by
  constructor
  · apply encodes_itself
    intro c hc
    rw [List.eq_of_mem_replicate hc]
    decide
  · intro h
    have hlen := (uriDecode_iff _).mp ⟨_, h⟩
    rw [List.length_replicate] at hlen
    exact Nat.lt_irrefl _ hlen

theorem uriDecode_inverts_two :
    uriDecode (ascii "%74%77%6f+%6F".toList) = .ok (ascii "two o".toList) ∧
    uriDecode (ascii "%broken%1".toList) = .ok (ascii "%broken%1".toList) := by
  have hcode {c x y : UInt8} (m n : Nat) (hx : HexDigit x m) (hy : HexDigit y n) (hc : c.toNat = 16 * m + n) :
      EncodesChar c [37, x, y] := .code ⟨m, n, hx, hy, hc⟩
  constructor
  · apply ((uriDecode_inverts_iff _).1 _ ?_).mpr (by decide)
    exact .cons (by decide) (by decide) (hcode 7 4 (by decide) (by decide) rfl)
      (.cons (by decide) (by decide) (hcode 7 7 (by decide) (by decide) rfl)
        (.cons (by decide) (by decide) (hcode 6 15 (by decide) (by decide) rfl)
          (.cons (by decide) (by decide) .plus
            (.cons (by decide) (by decide) (hcode 6 15 (by decide) (by decide) rfl) .nil))))
  · exact ((uriDecode_inverts_iff _).2 (decoded_eq_self.mp (by decide))).mpr (by decide)

end SearchEngine.HttpUtils
