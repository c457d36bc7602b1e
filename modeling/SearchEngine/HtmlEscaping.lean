import SearchEngine.HttpUtils
import SearchEngine.Library.ItemReader

namespace SearchEngine.HttpUtils

/-- The entity that a string starts with, if any. -/
def leadingEntity (s : Bytes) : Option UInt8 := unsafeTokens.find? fun c => (escapeChar c).isPrefixOf s

/-- How a browser takes one character from a page. -/
def readChar : Bytes → Option (UInt8 × Bytes)
  | [] => none
  | b :: rest =>
      match leadingEntity (b :: rest) with
      | some c => some (c, (b :: rest).drop (escapeChar c).length)
      | none => some (b, rest)

theorem escapeChar_pos (c : UInt8) : 0 < (escapeChar c).length := by
  rw [escapeChar]
  cases h : escapeCode c with
  | none => exact Nat.one_pos
  | some code =>
      obtain ⟨rest, rfl, _⟩ := escapeCode_tail h
      exact Nat.succ_pos _

def charReader : ItemReader UInt8 UInt8 where
  read := readChar
  shorter := by
    intro s c rest h
    cases s with
    | nil => cases h
    | cons b s =>
        rw [readChar] at h
        cases hentity : leadingEntity (b :: s) with
        | none =>
            rw [hentity] at h
            obtain ⟨rfl, rfl⟩ : b = c ∧ s = rest := by simpa using h
            exact Nat.lt_succ_self _
        | some c' =>
            rw [hentity] at h
            have hpos := escapeChar_pos c'
            obtain ⟨rfl, rfl⟩ : c' = c ∧ (b :: s).drop (escapeChar c').length = rest := by simpa using h
            rw [List.length_drop, List.length_cons]
            omega

def unescape (s : Bytes) : Bytes := (charReader.readAll s).1

theorem escapeChar_safe {c : UInt8} (h : c ∉ unsafeTokens) : escapeChar c = [c] := by
  rw [escapeChar, Option.not_isSome_iff_eq_none.mp (mt escapeCode_isSome.mp h)]
  rfl

theorem leadingEntity_escapeChar {c : UInt8} (h : c ∈ unsafeTokens) (rest : Bytes) :
    leadingEntity (escapeChar c ++ rest) = some c := by
  have htokens : c = 34 ∨ c = 38 ∨ c = 39 ∨ c = 60 ∨ c = 62 := by simpa [unsafeTokens] using h
  rcases htokens with rfl | rfl | rfl | rfl | rfl <;> rfl

theorem leadingEntity_other {b : UInt8} (h : b ≠ 38) (rest : Bytes) : leadingEntity (b :: rest) = none := by
  rw [leadingEntity, List.find?_eq_none]
  intro c hc hpre
  obtain ⟨code, hcode⟩ := Option.isSome_iff_exists.mp (escapeCode_isSome.mpr hc)
  obtain ⟨tail, rfl, _⟩ := escapeCode_tail hcode
  have hstart : (38 : UInt8) = b := by
    rw [escapeChar, hcode] at hpre
    exact (List.cons_prefix_cons.mp (List.isPrefixOf_iff_prefix.mp hpre)).1
  exact h hstart.symm

theorem readChar_escapeChar (c : UInt8) (rest : Bytes) : readChar (escapeChar c ++ rest) = some (c, rest) := by
  by_cases h : c ∈ unsafeTokens
  · obtain ⟨b, tail, hb⟩ := List.exists_cons_of_length_pos (escapeChar_pos c)
    have hentity := leadingEntity_escapeChar h rest
    have hdrop : (b :: (tail ++ rest)).drop (escapeChar c).length = rest := by
      rw [← List.cons_append, ← hb, List.drop_left]
    rw [hb, List.cons_append] at hentity ⊢
    rw [readChar, hentity]
    simp only [hdrop]
  · have hamp : c ≠ 38 := by
      rintro rfl
      exact h (by simp [unsafeTokens])
    rw [escapeChar_safe h, List.singleton_append, readChar, leadingEntity_other hamp]

theorem unescape_flatMap (str : Bytes) : unescape (str.flatMap escapeChar) = str := by
  rw [unescape, charReader.readAll_flatMap fun c _ rest => readChar_escapeChar c rest]
  exact List.map_id str

theorem mem_escapeChar {b c : UInt8} (h : b ∈ escapeChar c) : b ∉ unsafeTokens ∨ b = 38 := by
  by_cases hc : c ∈ unsafeTokens
  · obtain ⟨code, hcode⟩ := Option.isSome_iff_exists.mp (escapeCode_isSome.mpr hc)
    obtain ⟨tail, rfl, htail⟩ := escapeCode_tail hcode
    rw [escapeChar, hcode] at h
    rcases List.mem_cons.mp h with rfl | h
    · exact .inr rfl
    · exact .inl (htail b h)
  · rw [escapeChar_safe hc, List.mem_singleton] at h
    exact .inl (h ▸ hc)

/-- An ampersand of an escaped string is the first character of an entity. -/
theorem ampersand_starts {str front back : Bytes} (h : str.flatMap escapeChar = front ++ 38 :: back) :
    ∃ c ∈ unsafeTokens, escapeChar c <+: 38 :: back := by
  induction str generalizing front with
  | nil => simp at h
  | cons c str ih =>
      rw [List.flatMap_cons] at h
      by_cases hc : c ∈ unsafeTokens
      · obtain ⟨code, hcode⟩ := Option.isSome_iff_exists.mp (escapeCode_isSome.mpr hc)
        obtain ⟨tail, rfl, htail⟩ := escapeCode_tail hcode
        have hchar : escapeChar c = 38 :: tail := by rw [escapeChar, hcode]; rfl
        rw [hchar] at h
        cases front with
        | nil =>
            refine ⟨c, hc, ?_⟩
            rw [hchar, ← List.nil_append (38 :: back), ← h]
            exact List.prefix_append _ _
        | cons a front =>
            obtain ⟨_, h⟩ := List.cons.inj h
            rcases List.append_eq_append_iff.mp h with ⟨more, rfl, hrest⟩ | ⟨more, htl, hback⟩
            · exact ih hrest
            · cases more with
              | nil => exact @ih [] (by simpa using hback.symm)
              | cons m more =>
                  obtain ⟨rfl, _⟩ := List.cons.inj hback
                  exact absurd (by simp [unsafeTokens]) (htail 38 (by simp [htl]))
      · have hamp : c ≠ 38 := by
          rintro rfl
          exact hc (by simp [unsafeTokens])
        rw [escapeChar_safe hc] at h
        cases front with
        | nil => exact absurd (List.cons.inj h).1 hamp
        | cons a front => exact ih (List.cons.inj h).2

/-- EscapeHtml comes to an end and escapes each character on its own. -/
theorem escapeHtml_characterwise (str : Bytes) :
    ∃ ret, escapeHtml str = .ok ret ∧ ret = str.flatMap escapeChar ∧
      (∀ b ∈ ret, b ≠ 34 ∧ b ≠ 39 ∧ b ≠ 60 ∧ b ≠ 62) ∧
      (∀ front back, ret = front ++ 38 :: back → ∃ c ∈ unsafeTokens, escapeChar c <+: 38 :: back) ∧
      unescape ret = str ∧
      ∀ more, escapeHtml (str ++ more) = (do return ret ++ (← escapeHtml more)) := by
  refine ⟨str.flatMap escapeChar, escapeHtml_eq str, rfl, ?_, fun _ _ => ampersand_starts, unescape_flatMap str, ?_⟩
  · intro b hb
    obtain ⟨c, _, hc⟩ := List.mem_flatMap.mp hb
    have hset := mem_escapeChar hc
    simp only [unsafeTokens, List.mem_cons, List.not_mem_nil, or_false, not_or] at hset
    refine ⟨?_, ?_, ?_, ?_⟩ <;> rintro rfl <;> simp at hset
  · intro more
    rw [escapeHtml_eq, escapeHtml_eq, List.flatMap_append]
    rfl

end SearchEngine.HttpUtils
