import SearchEngine.WordRuns
import Mathlib.Data.Set.Card

/-! How often a text has a word, as the parser counts it. -/

namespace SearchEngine.FileParser

/-- What the parser looks at: the text up to a zero byte, if it is ASCII. -/
def searchedText (contents : Bytes) : Bytes :=
  if (cString contents).any fun c => ASCII_UPPER_BOUND < c then [] else cString contents

def Occurs (s word : Bytes) (p : Nat) : Prop := ∃ q, WordRun s p q ∧ q < s.length ∧ wordAt s p q = word

/-- The number of the places where a file has a word, in any case and with a
character after it. -/
noncomputable def occurrences (contents word : Bytes) : Nat := {p | Occurs (searchedText contents) word p}.ncard

variable {contents word : Bytes}

theorem ascii_searchedText (contents : Bytes) : Ascii (searchedText contents) := by
  intro c hc
  rw [searchedText] at hc
  split at hc
  · cases hc
  · next hascii =>
    rw [List.any_eq_true, not_exists] at hascii
    have hne : c ≠ 0 := by
      have hprefix := List.mem_takeWhile_imp hc
      simpa using hprefix
    have hle : ¬ASCII_UPPER_BOUND < c := fun hlt => hascii c ⟨hc, decide_eq_true hlt⟩
    constructor
    · apply UInt8.not_lt.mp
      intro hlt
      apply hne
      apply UInt8.toNat_inj.mp
      have hzero := UInt8.lt_iff_toNat_lt.mp hlt
      exact Nat.lt_one_iff.mp hzero
    · exact UInt8.not_lt.mp hle

theorem tokens_searchedText (contents : Bytes) : tokens (searchedText contents) = tokens contents := by
  have hidem : cString (cString contents) = cString contents := List.takeWhile_idem ..
  by_cases hascii : (cString contents).any (fun c => ASCII_UPPER_BOUND < c) = true
  · have hempty : searchedText contents = [] := if_pos hascii
    rw [hempty, tokens, tokens, if_pos hascii]
    rfl
  · have hwhole : searchedText contents = cString contents := if_neg hascii
    rw [hwhole, tokens, tokens, hidem]

theorem occurs_iff {p : Nat} : Occurs (searchedText contents) word p ↔ ⟨word, p⟩ ∈ tokens contents := by
  rw [← tokens_searchedText, mem_tokens (ascii_searchedText contents), Ended, Occurs]
  exact exists_congr fun q => and_congr_right fun _ => and_congr_right fun _ => eq_comm

theorem nodup_positions (contents : Bytes) (p : Token → Bool) :
    (((tokens contents).filter p).map Token.pos).Nodup := by
  have hsorted := (tokens_ascending contents).1
  have hnodup : ((tokens contents).map Token.pos).Nodup := hsorted.imp fun h => Nat.ne_of_lt h
  exact hnodup.sublist (List.filter_sublist.map _)

theorem occurrences_eq (contents word : Bytes) :
    occurrences contents word = (tokens contents).countP fun t => t.word = word := by
  have hset : {p | Occurs (searchedText contents) word p} =
      ((((tokens contents).filter fun t => t.word = word).map Token.pos).toFinset : Set Nat) := by
    ext p
    rw [Set.mem_ofPred_eq, occurs_iff, Finset.mem_coe, List.mem_toFinset, List.mem_map]
    constructor
    · exact fun h => ⟨⟨word, p⟩, List.mem_filter.mpr ⟨h, decide_eq_true rfl⟩, rfl⟩
    · rintro ⟨⟨w, _⟩, ht, rfl⟩
      obtain ⟨hmem, hw⟩ := List.mem_filter.mp ht
      obtain rfl : w = word := of_decide_eq_true hw
      exact hmem
  rw [occurrences, hset, Set.ncard_coe_finset, List.toFinset_card_of_nodup (nodup_positions contents _),
    List.length_map, ← List.countP_eq_length_filter]

theorem occurrences_pos : 0 < occurrences contents word ↔ word ∈ (tokens contents).map Token.word := by
  rw [occurrences_eq, List.countP_pos_iff, List.mem_map]
  simp only [decide_eq_true_eq]

theorem Parsed.numElements_eq {tab : WordTable} (h : Parsed tab (tokens contents)) {key : UInt64} {wp : WordPositions}
    (hl : tab.lookup key = some wp) : wp.positions.numElements = occurrences contents wp.word := by
  rw [← LinkedList.length_payloads, h.positions key wp hl, List.length_map, occurrences_eq,
    List.countP_eq_length_filter]

end SearchEngine.FileParser
