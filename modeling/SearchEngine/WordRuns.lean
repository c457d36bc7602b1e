import SearchEngine.FileParser
import SearchEngine.Library.MaxRun

/-! The words of a text as its runs of letters, and which of them are
recorded. -/

namespace SearchEngine.FileParser

open HashTable

def letterAt (s : Bytes) (i : Nat) : Bool := (s[i]?).any isalpha

abbrev WordRun (s : Bytes) (p q : Nat) : Prop := MaxRun (letterAt s) p q

/-- The text from p up to q, in lower case. -/
def wordAt (s : Bytes) (p q : Nat) : Bytes := ((s.take q).drop p).map tolower

/-- The table has each word of the text, with all the places where it starts,
and nothing else. -/
structure ExactTable (s : Bytes) (tab : WordTable) : Prop where
  entry : ∀ key wp, tab.lookup key = some wp →
    hashString wp.word = key ∧ ∃ p q, WordRun s p q ∧ wordAt s p q = wp.word
  word : ∀ p q, WordRun s p q →
    ∃ wp, tab.lookup (hashString (wordAt s p q)) = some wp ∧ wp.word = wordAt s p q
  positions : ∀ key wp, tab.lookup key = some wp → (wp.positions.payloads.map UInt64.toNat).Pairwise (· < ·) ∧
    ∀ p, p ∈ wp.positions.payloads.map UInt64.toNat ↔ ∃ q, WordRun s p q ∧ wordAt s p q = wp.word
  count : ∃ words : Finset Bytes, (∀ w, w ∈ words ↔ ∃ p q, WordRun s p q ∧ wordAt s p q = w) ∧
    tab.numElements = words.card

theorem letterAt_of_drop {s rest : Bytes} {pos : Nat} {c : UInt8} (h : s.drop pos = c :: rest) :
    pos < s.length ∧ letterAt s pos = isalpha c ∧ s.drop (pos + 1) = rest := by
  have hlt : pos < s.length := by
    apply Nat.lt_of_not_le
    intro hle
    rw [List.drop_eq_nil_of_le hle] at h
    cases h
  rw [List.drop_eq_getElem_cons hlt] at h
  obtain ⟨hc, hrest⟩ := List.cons.inj h
  refine ⟨hlt, ?_, hrest⟩
  rw [letterAt, List.getElem?_eq_getElem hlt, hc]
  rfl

theorem letterAt_lt {s : Bytes} {i : Nat} (h : letterAt s i = true) : i < s.length := by
  apply Nat.lt_of_not_le
  intro hle
  rw [letterAt, List.getElem?_eq_none hle] at h
  cases h

theorem wordAt_succ {s rest : Bytes} {p pos : Nat} {c : UInt8} (h : s.drop pos = c :: rest) (hp : p ≤ pos) :
    wordAt s p (pos + 1) = wordAt s p pos ++ [tolower c] := by
  have hlt := (letterAt_of_drop h).1
  rw [List.drop_eq_getElem_cons hlt] at h
  have htake : (s.take pos).length = pos := List.length_take_of_le (Nat.le_of_lt hlt)
  rw [wordAt, ← List.take_append_getElem hlt, List.drop_append_of_le_length (by omega), List.map_append,
    (List.cons.inj h).1]
  rfl

/-- What the scan knows at a position: the pending word is the run of letters
before it. -/
def Follows (s : Bytes) (word : Option Pending) (pos : Nat) : Prop :=
  match word with
  | none => ∀ i, i + 1 = pos → letterAt s i = false
  | some w => w.start < pos ∧ (∀ i, w.start ≤ i → i < pos → letterAt s i = true) ∧
      (∀ i, i + 1 = w.start → letterAt s i = false) ∧ w.letters = wordAt s w.start pos

theorem Follows.extend {s rest : Bytes} {word : Option Pending} {pos : Nat} {c : UInt8} (h : Follows s word pos)
    (hs : s.drop pos = c :: rest) (hc : isalpha c = true) :
    Follows s (some (Pending.extend word pos c)) (pos + 1) := by
  obtain ⟨hlt, hletter, _⟩ := letterAt_of_drop hs
  have hhere : letterAt s pos = true := hletter.trans hc
  cases word with
  | none =>
      refine ⟨Nat.lt_succ_self pos, ?_, h, ?_⟩
      · intro i hi hlt
        obtain rfl : i = pos := Nat.le_antisymm (Nat.lt_succ_iff.mp hlt) hi
        exact hhere
      · change [tolower c] = wordAt s pos (pos + 1)
        rw [wordAt_succ hs (Nat.le_refl pos), wordAt, List.drop_eq_nil_of_le (by simp)]
        rfl
  | some w =>
      obtain ⟨hstart, hin, hbefore, hletters⟩ := h
      refine ⟨Nat.lt_succ_of_lt hstart, ?_, hbefore, ?_⟩
      · intro i hi hlt
        rcases Nat.lt_or_eq_of_le (Nat.lt_succ_iff.mp hlt) with hlt | rfl
        · exact hin i hi hlt
        · exact hhere
      · change w.letters ++ [tolower c] = wordAt s w.start (pos + 1)
        rw [wordAt_succ hs (Nat.le_of_lt hstart), hletters]

theorem Follows.ends_after {s : Bytes} {word : Option Pending} {pos p q : Nat} (h : Follows s word pos)
    (hfrom : word.elim pos Pending.start ≤ p) (hrun : WordRun s p q) : pos ≤ q := by
  cases word with
  | none => exact Nat.le_trans hfrom (Nat.le_of_lt hrun.nonempty)
  | some w =>
      apply Nat.le_of_not_lt
      intro hlt
      have hin := h.2.1 q (Nat.le_trans hfrom (Nat.le_of_lt hrun.nonempty)) hlt
      rw [hrun.after] at hin
      cases hin

/-- The word that ends here is a run of its own. -/
theorem Follows.wordRun {s : Bytes} {w : Pending} {pos : Nat} (h : Follows s (some w) pos)
    (hhere : letterAt s pos = false) : WordRun s w.start pos :=
  ⟨h.1, h.2.1, h.2.2.1, hhere⟩

theorem start_after {s : Bytes} {p q pos : Nat} (hrun : WordRun s p q) (hp : pos ≤ p)
    (hhere : letterAt s pos = false) : pos + 1 ≤ p := by
  rcases Nat.lt_or_eq_of_le hp with hlt | rfl
  · exact hlt
  · have hin := hrun.starts
    rw [hhere] at hin
    cases hin

/-- The token is a run of letters that ends before the text does. -/
def Ended (s : Bytes) (t : Token) : Prop := ∃ q, WordRun s t.pos q ∧ q < s.length ∧ t.word = wordAt s t.pos q

/-- The first run from the start of the pending word is the word itself. -/
theorem Follows.ended_iff {s : Bytes} {w : Pending} {pos : Nat} (h : Follows s (some w) pos) (hlt : pos < s.length)
    (hhere : letterAt s pos = false) (t : Token) :
    t = ⟨w.letters, w.start⟩ ∨ (pos + 1 ≤ t.pos ∧ Ended s t) ↔ w.start ≤ t.pos ∧ Ended s t := by
  have hended := h.wordRun hhere
  constructor
  · rintro (rfl | ⟨hp, hfound⟩)
    · exact ⟨Nat.le_refl _, pos, hended, hlt, h.2.2.2⟩
    · exact ⟨Nat.le_trans (Nat.le_of_lt h.1) (Nat.le_of_succ_le hp), hfound⟩
  · rintro ⟨hfrom, q, hrun, hq, hletters⟩
    rcases Nat.lt_or_eq_of_le hfrom with hafter | hsame
    · have hp := Nat.le_of_lt (hended.start_outside hrun hafter)
      exact .inr ⟨start_after hrun hp hhere, q, hrun, hq, hletters⟩
    · left
      rw [← hsame] at hrun hletters
      rw [hrun.end_unique hended, ← h.2.2.2] at hletters
      cases t
      cases hsame
      cases hletters
      rfl

/-- The scan finds the runs that end before the text does. -/
theorem mem_scan {s : Bytes} {word : Option Pending} {pos : Nat} {content : Bytes} (hs : s.drop pos = content)
    (hword : Follows s word pos) (t : Token) :
    t ∈ scan word pos content ↔ word.elim pos Pending.start ≤ t.pos ∧ Ended s t := by
  induction content generalizing word pos with
  | nil =>
      have hle : s.length ≤ pos := List.drop_eq_nil_iff.mp hs
      constructor
      · intro ht
        cases ht
      · rintro ⟨hfrom, q, hrun, hq, _⟩
        have hpos := hword.ends_after hfrom hrun
        exact absurd (Nat.lt_of_le_of_lt (Nat.le_trans hle hpos) hq) (Nat.lt_irrefl _)
  | cons c rest ih =>
      obtain ⟨hlt, hletter, hrest⟩ := letterAt_of_drop hs
      unfold scan
      by_cases hc : isalpha c = true
      · have hfrom : (some (Pending.extend word pos c)).elim (pos + 1) Pending.start = word.elim pos Pending.start := by
          cases word <;> rfl
        rw [if_pos hc, ih hrest (hword.extend hs hc), hfrom]
      · have hhere : letterAt s pos = false := hletter.trans (Bool.eq_false_of_not_eq_true hc)
        have hnone : Follows s none (pos + 1) := by
          intro i hi
          rw [Nat.succ.inj hi]
          exact hhere
        have hmore := ih hrest hnone
        rw [if_neg hc]
        cases word with
        | none =>
            rw [hmore]
            apply and_congr_left
            rintro ⟨q, hrun, _, _⟩
            exact ⟨Nat.le_of_succ_le, fun hp => start_after hrun hp hhere⟩
        | some w =>
            rw [List.mem_cons, hmore]
            exact hword.ended_iff hlt hhere t

theorem WordRun.end_le {s : Bytes} {p q : Nat} (h : WordRun s p q) : q ≤ s.length := by
  obtain ⟨i, rfl⟩ := Nat.exists_eq_add_one_of_ne_zero (Nat.ne_zero_of_lt h.nonempty)
  exact letterAt_lt (h.inside i (Nat.le_of_lt_succ h.nonempty) (Nat.lt_succ_self i))

theorem letterAt_length (s : Bytes) : letterAt s s.length = false := by
  apply Bool.eq_false_of_not_eq_true
  intro h
  exact Nat.lt_irrefl _ (letterAt_lt h)

theorem exists_wordRun {s : Bytes} {i : Nat} (h : letterAt s i = true) : ∃ p q, WordRun s p q ∧ p ≤ i ∧ i < q :=
  MaxRun.exists_around h (letterAt_lt h) (letterAt_length s)

theorem exists_letter_iff (s : Bytes) : (∃ c ∈ s, isalpha c = true) ↔ ∃ p q, WordRun s p q := by
  constructor
  · rintro ⟨c, hc, hletter⟩
    obtain ⟨i, hi, rfl⟩ := List.getElem_of_mem hc
    have hat : letterAt s i = true := by
      rw [letterAt, List.getElem?_eq_getElem hi]
      exact hletter
    obtain ⟨p, q, hrun, _⟩ := exists_wordRun hat
    exact ⟨p, q, hrun⟩
  · rintro ⟨p, q, hrun⟩
    have hat := hrun.starts
    rw [letterAt, List.getElem?_eq_getElem (letterAt_lt hrun.starts)] at hat
    exact ⟨_, List.getElem_mem _, hat⟩

/-- A run is cut off by the end of the text when the text ends in a letter. -/
theorem cut_off_iff (s : Bytes) : (∃ c ∈ s.getLast?, isalpha c = true) ↔ ∃ p, WordRun s p s.length := by
  have hlast : letterAt s (s.length - 1) = true ↔ ∃ c ∈ s.getLast?, isalpha c = true := by
    rw [letterAt, ← List.getLast?_eq_getElem?, Option.any_eq_true]
    rfl
  rw [← hlast]
  constructor
  · intro h
    obtain ⟨p, q, hrun, _, hq⟩ := exists_wordRun h
    have hend : q = s.length := by
      have hle := hrun.end_le
      omega
    exact ⟨p, hend ▸ hrun⟩
  · rintro ⟨p, hrun⟩
    have hlt := hrun.nonempty
    exact hrun.inside (s.length - 1) (by omega) (by omega)

def Ascii (s : Bytes) : Prop := ∀ c ∈ s, 1 ≤ c ∧ c ≤ ASCII_UPPER_BOUND

/-- The hash tells the words of the text apart. -/
def CollisionFree (s : Bytes) : Prop :=
  ∀ p q p' q', WordRun s p q → WordRun s p' q' → hashString (wordAt s p q) = hashString (wordAt s p' q') →
    wordAt s p q = wordAt s p' q'

section

variable {s : Bytes} {tab : WordTable}

theorem mem_tokens (hascii : Ascii s) (t : Token) :
    t ∈ tokens s ↔ Ended s t := by
  have hwhole : cString s = s := by
    apply List.takeWhile_eq_self_iff.mpr
    intro c hc
    have hne : c ≠ 0 := by
      rintro rfl
      exact absurd (hascii 0 hc).1 (by decide)
    simpa using hne
  have hall : ¬ s.any (fun c => ASCII_UPPER_BOUND < c) = true := by
    rw [List.any_eq_true]
    rintro ⟨c, hc, hhigh⟩
    exact UInt8.not_le.mpr (of_decide_eq_true hhigh) (hascii c hc).2
  have hstart : Follows s none 0 := fun i hi => (nomatch hi)
  have hscan := mem_scan (@List.drop_zero _ s) hstart t
  rw [tokens, hwhole, if_neg hall, hscan]
  exact and_iff_right (Nat.zero_le t.pos)

theorem inside_of_last (hlast : ∀ c ∈ s.getLast?, isalpha c = false) {p q : Nat} (hrun : WordRun s p q) :
    q < s.length := by
  rcases Nat.lt_or_eq_of_le hrun.end_le with hlt | rfl
  · exact hlt
  · obtain ⟨c, hc, hletter⟩ := (cut_off_iff s).mpr ⟨p, hrun⟩
    rw [hlast c hc] at hletter
    cases hletter

theorem collisionFree_iff (hascii : Ascii s) (hlast : ∀ c ∈ s.getLast?, isalpha c = false) :
    CollisionFree s ↔
      ∀ u ∈ tokens s, ∀ v ∈ tokens s, hashString u.word = hashString v.word → u.word = v.word := by
  constructor
  · intro h u hu v hv
    obtain ⟨q, hrun, _, hletters⟩ := (mem_tokens hascii u).mp hu
    obtain ⟨q', hrun', _, hletters'⟩ := (mem_tokens hascii v).mp hv
    rw [hletters, hletters']
    exact h _ _ _ _ hrun hrun'
  · intro h p q p' q' hrun hrun'
    have htok := (mem_tokens hascii ⟨wordAt s p q, p⟩).mpr ⟨q, hrun, inside_of_last hlast hrun, rfl⟩
    have htok' := (mem_tokens hascii ⟨wordAt s p' q', p'⟩).mpr ⟨q', hrun', inside_of_last hlast hrun', rfl⟩
    exact h _ htok _ htok'

theorem toNat_payload {pos : Nat} (h : pos < 2 ^ 32) : (payload pos).toNat = pos := by
  rw [payload, UInt32.toNat_toUInt64, UInt32.toNat_ofNat', Nat.mod_eq_of_lt h]

/-- The offsets in an entry are those of the recorded runs of its word. -/
theorem Parsed.mem_positions (hascii : Ascii s) (hlen : s.length < 2 ^ 31) (h : Parsed tab (tokens s)) {key : UInt64}
    {wp : WordPositions} (hl : tab.lookup key = some wp) (p : Nat) :
    p ∈ wp.positions.payloads.map UInt64.toNat ↔ ∃ q, WordRun s p q ∧ q < s.length ∧ wordAt s p q = wp.word := by
  have hsmall (t : Token) (ht : t ∈ tokens s) : (payload t.pos).toNat = t.pos := by
    have hlt := (tokens_ascending s).2 t ht
    exact toNat_payload (by omega)
  rw [h.positions key wp hl]
  constructor
  · intro hp
    obtain ⟨x, hx, rfl⟩ := List.mem_map.mp hp
    obtain ⟨t, ht, rfl⟩ := List.mem_map.mp hx
    obtain ⟨htok, hword⟩ := List.mem_filter.mp ht
    obtain ⟨q, hrun, hq, hletters⟩ := (mem_tokens hascii t).mp htok
    rw [hsmall t htok]
    exact ⟨q, hrun, hq, hletters.symm.trans (of_decide_eq_true hword)⟩
  · rintro ⟨q, hrun, hq, hword⟩
    have htok : (⟨wordAt s p q, p⟩ : Token) ∈ tokens s := (mem_tokens hascii _).mpr ⟨q, hrun, hq, rfl⟩
    apply List.mem_map.mpr
    refine ⟨payload p, List.mem_map.mpr ⟨⟨wordAt s p q, p⟩, ?_, rfl⟩, hsmall _ htok⟩
    exact List.mem_filter.mpr ⟨htok, decide_eq_true hword⟩

theorem Parsed.exactTable (hascii : Ascii s) (hlen : s.length < 2 ^ 31) (h : Parsed tab (tokens s))
    (hinside : ∀ p q, WordRun s p q → q < s.length) : ExactTable s tab := by
  have hwords (w : Bytes) : w ∈ (tokens s).map Token.word ↔ ∃ p q, WordRun s p q ∧ wordAt s p q = w := by
    constructor
    · intro hw
      obtain ⟨t, ht, rfl⟩ := List.mem_map.mp hw
      obtain ⟨q, hrun, _, hletters⟩ := (mem_tokens hascii t).mp ht
      exact ⟨t.pos, q, hrun, hletters.symm⟩
    · rintro ⟨p, q, hrun, rfl⟩
      exact List.mem_map.mpr ⟨⟨wordAt s p q, p⟩, (mem_tokens hascii _).mpr ⟨q, hrun, hinside p q hrun, rfl⟩, rfl⟩
  exact {
    entry := by
      intro key wp hl
      obtain ⟨hkey, hword⟩ := h.key key wp hl
      exact ⟨hkey, (hwords wp.word).mp hword⟩
    word := by
      intro p q hrun
      obtain ⟨t, ht, hword⟩ := List.mem_map.mp ((hwords (wordAt s p q)).mpr ⟨p, q, hrun, rfl⟩)
      rw [← hword]
      exact h.word t ht
    positions := by
      intro key wp hl
      constructor
      · rw [List.pairwise_map]
        exact (h.positions_ascending hlen hl).2.imp UInt64.lt_iff_toNat_lt.mp
      · intro p
        rw [h.mem_positions hascii hlen hl]
        exact exists_congr fun q => and_congr_right fun hrun => and_iff_right (hinside p q hrun)
    count := ⟨((tokens s).map Token.word).toFinset, by simpa using hwords, h.count⟩ }

end

/-- The table is exact unless the text ends in a letter: the word there is
nowhere recorded. -/
theorem parse_documented_iff (s : Bytes) (hascii : Ascii s) (hlen : s.length < 2 ^ 31)
    (hfree : CollisionFree s) :
    (∃ r, parseIntoWordPositionsTable s = .ok r ∧ (r.isSome = true ↔ ∃ c ∈ s, isalpha c = true) ∧
      ∀ tab ∈ r, ExactTable s tab) ↔ ∀ c ∈ s.getLast?, isalpha c = false := by
  constructor
  · rintro ⟨r, hr, hsome, hexact⟩ c hc
    apply Bool.eq_false_of_not_eq_true
    intro hletter
    obtain ⟨p, hrun⟩ := (cut_off_iff s).mp ⟨c, hc, hletter⟩
    obtain ⟨tab, rfl⟩ := Option.isSome_iff_exists.mp (hsome.mpr ((exists_letter_iff s).mpr ⟨p, s.length, hrun⟩))
    obtain ⟨wp, hl, hword⟩ := (hexact tab rfl).word p s.length hrun
    have hthere := (((hexact tab rfl).positions _ wp hl).2 p).mpr ⟨s.length, hrun, hword.symm⟩
    rcases parse_ok hlen hr with ⟨hnone, _⟩ | ⟨tab', hsame, _, hparsed⟩
    · cases hnone
    · cases hsame
      obtain ⟨q, hrun', hq, _⟩ := (hparsed.mem_positions hascii hlen hl p).mp hthere
      rw [hrun'.end_unique hrun] at hq
      exact Nat.lt_irrefl _ hq
  · intro hlast
    have hinside (p q : Nat) (hrun : WordRun s p q) : q < s.length := inside_of_last hlast hrun
    obtain ⟨r, hr⟩ := parse_new hlen ((collisionFree_iff hascii hlast).mp hfree)
    refine ⟨r, hr, ?_, ?_⟩
    · rw [exists_letter_iff]
      rcases parse_ok hlen hr with ⟨rfl, hnil⟩ | ⟨tab, rfl, hne, _⟩
      · refine ⟨fun h => (nomatch h), ?_⟩
        rintro ⟨p, q, hrun⟩
        have htok := (mem_tokens hascii ⟨wordAt s p q, p⟩).mpr ⟨q, hrun, hinside p q hrun, rfl⟩
        rw [hnil] at htok
        cases htok
      · refine ⟨fun _ => ?_, fun _ => rfl⟩
        obtain ⟨t, ht⟩ := List.exists_mem_of_ne_nil _ hne
        obtain ⟨q, hrun, _⟩ := (mem_tokens hascii t).mp ht
        exact ⟨t.pos, q, hrun⟩
    · intro tab htab
      rcases parse_ok hlen hr with ⟨rfl, _⟩ | ⟨tab', rfl, _, hparsed⟩
      · cases htab
      · cases htab
        exact hparsed.exactTable hascii hlen hinside

end SearchEngine.FileParser
