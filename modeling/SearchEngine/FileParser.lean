import SearchEngine.Resize
import SearchEngine.Library.ByteStrings
import Mathlib.Data.Finset.Card
import Mathlib.Data.List.TakeWhile

namespace SearchEngine

structure WordPositions where
  word : Bytes
  positions : LinkedList UInt64
  deriving DecidableEq

abbrev WordTable := HashTable WordPositions

namespace FileParser

open HashTable

def ASCII_UPPER_BOUND : UInt8 := 0x7F

def isalpha (c : UInt8) : Bool := (65 ≤ c && c ≤ 90) || (97 ≤ c && c ≤ 122)

def tolower (c : UInt8) : UInt8 := if 65 ≤ c && c ≤ 90 then c + 32 else c

def cString (buf : Bytes) : Bytes := buf.takeWhile (· ≠ 0)

/-- The cast of a DocPositionOffset_t, which has 32 bits, to a list payload. -/
def payload (pos : Nat) : UInt64 := (UInt32.ofNat pos).toUInt64

def addWordPosition (tab : WordTable) (word : Bytes) (pos : Nat) : Run WordTable := do
  let hashKey := hashString word
  match ← tab.find hashKey with
  | some kv =>
      verify333 (kv.value.word = word)
      return tab.writeValue hashKey ⟨kv.value.word, kv.value.positions.append (payload pos)⟩
  | none =>
      let (tab, _) ← tab.insert ⟨hashKey, ⟨word, LinkedList.allocate.append (payload pos)⟩⟩
      return tab

/-- The word the scan is in: where it starts, and its letters so far, already
in lower case. -/
structure Pending where
  start : Nat
  letters : Bytes

def Pending.extend (word : Option Pending) (pos : Nat) (c : UInt8) : Pending :=
  match word with
  | none => ⟨pos, [tolower c]⟩
  | some w => ⟨w.start, w.letters ++ [tolower c]⟩

/-- The loop of InsertContent. A word is recorded by the boundary after it, so
one that the end of the content cuts off is not. -/
def insertContent (tab : WordTable) (word : Option Pending) (pos : Nat) : Bytes → Run WordTable
  | [] => .ok tab
  | c :: rest => do
      if isalpha c then
        insertContent tab (some (Pending.extend word pos c)) (pos + 1) rest
      else
        match word with
        | none => insertContent tab none (pos + 1) rest
        | some w =>
            let tab ← addWordPosition tab w.letters w.start
            insertContent tab none (pos + 1) rest

def parseIntoWordPositionsTable (fileContents : Bytes) : Run (Option WordTable) := do
  let content := cString fileContents
  let fileLen := toInt content.length
  if fileLen = 0 then return none
  if (content.take fileLen.toNat).any fun c => c = 0 || ASCII_UPPER_BOUND < c then return none
  let tab ← HashTable.allocate 32
  let tab ← insertContent tab none 0 content
  if tab.numElements = 0 then return none
  return some tab

structure Token where
  word : Bytes
  pos : Nat

def addTokens (tab : WordTable) (tokens : List Token) : Run WordTable :=
  tokens.foldlM (fun tab t => addWordPosition tab t.word t.pos) tab

/-- The words the loop records, in order. -/
def scan (word : Option Pending) (pos : Nat) : Bytes → List Token
  | [] => []
  | c :: rest =>
      if isalpha c then scan (some (Pending.extend word pos c)) (pos + 1) rest
      else
        match word with
        | none => scan none (pos + 1) rest
        | some w => ⟨w.letters, w.start⟩ :: scan none (pos + 1) rest

theorem insertContent_eq (tab : WordTable) (word : Option Pending) (pos : Nat) (content : Bytes) :
    insertContent tab word pos content = addTokens tab (scan word pos content) := by
  induction content generalizing tab word pos with
  | nil => rfl
  | cons c rest ih =>
      unfold insertContent scan
      by_cases hc : isalpha c = true
      · simp only [hc, if_true]
        apply ih
      · rw [if_neg hc, if_neg hc]
        cases word with
        | none => exact ih tab none (pos + 1)
        | some w =>
            simp only [addTokens, List.foldlM_cons]
            congr 1
            funext tab'
            exact ih tab' none (pos + 1)

/-- The words of a file that is parsed at all: none when the text is empty or
not ASCII. -/
def tokens (fileContents : Bytes) : List Token :=
  if (cString fileContents).any fun c => ASCII_UPPER_BOUND < c then [] else scan none 0 (cString fileContents)

/-- The table holds the tokens, each word once and its positions in order. -/
structure Parsed (tab : WordTable) (tokens : List Token) : Prop where
  grown : Grown 32 tab
  key : ∀ key wp, tab.lookup key = some wp → hashString wp.word = key ∧ wp.word ∈ tokens.map Token.word
  word : ∀ t ∈ tokens, ∃ wp, tab.lookup (hashString t.word) = some wp ∧ wp.word = t.word
  positions : ∀ key wp, tab.lookup key = some wp →
    wp.positions.payloads = (tokens.filter fun t => t.word = wp.word).map fun t => payload t.pos
  count : tab.numElements = (tokens.map Token.word).toFinset.card

theorem allocate_parsed : ∃ tab, HashTable.allocate 32 = .ok tab ∧ Parsed tab [] := by
  obtain ⟨tab, halloc, hzero, hgrown⟩ := allocate_grown (V := WordPositions) (n := 32) (by decide) (by decide)
  have hnone := lookup_of_numElements_zero hzero
  exact ⟨tab, halloc, hgrown, by simp [hnone], by simp, by simp [hnone], by simp [hzero]⟩

section

variable {tab tab' : WordTable} {ts : List Token} {t : Token}

/-- Recording a token, whether its word is new or not: what the word's key
leads to afterwards, and how many words there are. -/
structure Recorded (tab : WordTable) (t : Token) (tab' : WordTable) : Prop where
  grown : Grown 32 tab'
  agrees : ∀ wp, tab.lookup (hashString t.word) = some wp → wp.word = t.word
  other : ∀ key, key ≠ hashString t.word → tab'.lookup key = tab.lookup key
  there : ∃ wp, tab'.lookup (hashString t.word) = some wp ∧ wp.word = t.word ∧
    wp.positions.payloads =
      ((tab.lookup (hashString t.word)).map fun wp => wp.positions.payloads).getD [] ++ [payload t.pos]
  count : tab'.numElements =
    if (tab.lookup (hashString t.word)).isSome then tab.numElements else tab.numElements + 1

theorem Parsed.fresh (hparsed : Parsed tab ts) {word : Bytes} (hl : tab.lookup (hashString word) = none) :
    word ∉ ts.map Token.word := by
  intro hmem
  obtain ⟨u, hu, rfl⟩ := List.mem_map.mp hmem
  obtain ⟨wp, hl', _⟩ := hparsed.word u hu
  rw [hl] at hl'
  cases hl'

theorem addWordPosition_ok (hgrown : Grown 32 tab) (h : addWordPosition tab t.word t.pos = .ok tab') :
    Recorded tab t tab' := by
  simp only [addWordPosition, find_eq, Run.ok_bind] at h
  cases hl : tab.lookup (hashString t.word) with
  | none =>
      simp only [hl, Option.map_none] at h
      obtain ⟨⟨tab₁, old⟩, hins, hret⟩ := Run.bind_eq_ok.mp h
      obtain rfl : tab₁ = tab' := by simpa using hret
      have hadd := insert_new_ok hgrown hl hins
      refine ⟨hadd.grown, by simp [hl], ?_, ?_, by simp [hl, hadd.count]⟩
      · intro key hk
        rw [hadd.lookup, if_neg hk]
      · exact ⟨_, by rw [hadd.lookup, if_pos rfl], rfl, by simp [hl]⟩
  | some wp =>
      simp only [hl, Option.map_some] at h
      obtain ⟨_, hver, hret⟩ := Run.bind_eq_ok.mp h
      have hword : wp.word = t.word := by
        by_contra hne
        simp [hne] at hver
      obtain rfl : tab.writeValue (hashString t.word) ⟨wp.word, wp.positions.append (payload t.pos)⟩ = tab' := by
        simpa using hret
      have hthere : (tab.lookup (hashString t.word)).isSome := by simp [hl]
      obtain ⟨hlook, hcount, hbuckets⟩ := writeValue_spec hthere
        ⟨wp.word, wp.positions.append (payload t.pos)⟩
      refine ⟨⟨hgrown.start, ?_, ?_⟩, by simp [hl, hword], ?_, ?_, by simp [hl, hcount]⟩
      · rw [hcount, hbuckets]
        exact hgrown.buckets
      · rw [hcount]
        exact hgrown.fits
      · intro key hk
        rw [hlook, if_neg hk]
      · exact ⟨⟨wp.word, wp.positions.append (payload t.pos)⟩, by rw [hlook, if_pos rfl], hword, by simp [hl]⟩

theorem addWordPosition_parsed (hparsed : Parsed tab ts) (h : addWordPosition tab t.word t.pos = .ok tab') :
    Parsed tab' (ts ++ [t]) := by
  have hrec := addWordPosition_ok hparsed.grown h
  obtain ⟨wp, hwp, hword, hpos⟩ := hrec.there
  have hcases (key : UInt64) (wp' : WordPositions) (hl : tab'.lookup key = some wp') :
      (key = hashString t.word ∧ wp' = wp) ∨ (wp'.word ≠ t.word ∧ tab.lookup key = some wp') := by
    by_cases hk : key = hashString t.word
    · rw [hk, hwp] at hl
      exact .inl ⟨hk, (Option.some.inj hl).symm⟩
    · rw [hrec.other key hk] at hl
      refine .inr ⟨?_, hl⟩
      intro he
      exact hk (by rw [← (hparsed.key key wp' hl).1, he])
  exact {
    grown := hrec.grown
    key := by
      intro key wp' hl
      rcases hcases key wp' hl with ⟨rfl, rfl⟩ | ⟨_, hold⟩
      · exact ⟨by rw [hword], by simp [hword]⟩
      · obtain ⟨hkey, hmem⟩ := hparsed.key key wp' hold
        exact ⟨hkey, by rw [List.map_append]; exact List.mem_append_left _ hmem⟩
    word := by
      intro u hu
      rcases List.mem_append.mp hu with hu | hu
      · obtain ⟨wp', hl, hsame⟩ := hparsed.word u hu
        by_cases hk : hashString u.word = hashString t.word
        · rw [hk] at hl ⊢
          exact ⟨wp, hwp, by rw [hword, ← hrec.agrees wp' hl, hsame]⟩
        · exact ⟨wp', by rw [hrec.other _ hk, hl], hsame⟩
      · obtain rfl := List.mem_singleton.mp hu
        exact ⟨wp, hwp, hword⟩
    positions := by
      intro key wp' hl
      rw [List.filter_append, List.map_append]
      rcases hcases key wp' hl with ⟨rfl, rfl⟩ | ⟨hne, hold⟩
      · rw [hpos, hword]
        simp only [List.filter_cons, decide_true, if_true, List.filter_nil, List.map_cons, List.map_nil]
        congr 1
        cases hl₀ : tab.lookup (hashString t.word) with
        | some wp₀ =>
            have hp := hparsed.positions _ _ hl₀
            rwa [hrec.agrees wp₀ hl₀] at hp
        | none =>
            have hfresh : ts.filter (fun u => u.word = t.word) = [] := by
              rw [List.filter_eq_nil_iff]
              intro u hu he
              exact hparsed.fresh hl₀ (List.mem_map.mpr ⟨u, hu, of_decide_eq_true he⟩)
            simp [hfresh]
      · simp [hparsed.positions key wp' hold, hne.symm]
    count := by
      rw [hrec.count, hparsed.count, List.map_append, List.map_singleton, ByteStrings.card_concat]
      cases hl : tab.lookup (hashString t.word) with
      | none =>
          rw [if_neg (hparsed.fresh hl)]
          rfl
      | some wp₀ =>
          have hknown : t.word ∈ ts.map Token.word := by
            rw [← hrec.agrees wp₀ hl]
            exact (hparsed.key _ _ hl).2
          rw [if_pos hknown]
          rfl }

theorem addWordPosition_new (hparsed : Parsed tab ts)
    (hfree : ∀ u ∈ ts, hashString u.word = hashString t.word → u.word = t.word)
    (hfit : 3 * bucketsFor 32 (((ts ++ [t]).map Token.word).toFinset.card) ≤ INT_MAX) :
    ∃ tab', addWordPosition tab t.word t.pos = .ok tab' := by
  simp only [addWordPosition, find_eq, Run.ok_bind]
  cases hl : tab.lookup (hashString t.word) with
  | some wp =>
      obtain ⟨hkey, hmem⟩ := hparsed.key _ _ hl
      obtain ⟨u, hu, he⟩ := List.mem_map.mp hmem
      have hword : wp.word = t.word := by
        rw [← he]
        exact hfree u hu (by rw [he, hkey])
      simp only [Option.map_some, hword, decide_true, verify333_true, Run.ok_bind]
      exact ⟨_, rfl⟩
  | none =>
      rw [List.map_append, List.map_singleton, ByteStrings.card_concat, if_neg (hparsed.fresh hl),
        ← hparsed.count] at hfit
      obtain ⟨tab', hins, _⟩ := insert_new ⟨hashString t.word, ⟨t.word, LinkedList.allocate.append (payload t.pos)⟩⟩
        hparsed.grown hl hfit
      exact ⟨tab', by simp [hins]⟩

theorem addTokens_parsed {more : List Token} (hparsed : Parsed tab ts) (h : addTokens tab more = .ok tab') :
    Parsed tab' (ts ++ more) := by
  induction more generalizing tab ts with
  | nil =>
      obtain rfl : tab = tab' := by simpa [addTokens] using h
      simpa using hparsed
  | cons t more ih =>
      simp only [addTokens, List.foldlM_cons] at h
      obtain ⟨tab₁, hadd, h⟩ := Run.bind_eq_ok.mp h
      have hnext := ih (addWordPosition_parsed hparsed hadd) h
      rwa [List.append_assoc] at hnext

theorem addTokens_new {more : List Token} (hparsed : Parsed tab ts)
    (hfree : ∀ u ∈ ts ++ more, ∀ v ∈ ts ++ more, hashString u.word = hashString v.word → u.word = v.word)
    (hfit : 3 * bucketsFor 32 (((ts ++ more).map Token.word).toFinset.card) ≤ INT_MAX) :
    ∃ tab', addTokens tab more = .ok tab' := by
  induction more generalizing tab ts with
  | nil => exact ⟨tab, rfl⟩
  | cons t more ih =>
      have hle : ((ts ++ [t]).map Token.word).toFinset.card ≤ ((ts ++ t :: more).map Token.word).toFinset.card := by
        apply Finset.card_le_card
        intro w hw
        simp only [List.mem_toFinset, List.mem_map, List.mem_append, List.mem_cons] at hw ⊢
        obtain ⟨u, hu, he⟩ := hw
        exact ⟨u, by tauto, he⟩
      have hroom : 3 * bucketsFor 32 (((ts ++ [t]).map Token.word).toFinset.card) ≤ INT_MAX :=
        Nat.le_trans (Nat.mul_le_mul_left 3 (bucketsFor_mono 32 hle)) hfit
      obtain ⟨tab₁, hadd⟩ := addWordPosition_new hparsed
        (fun u hu => hfree u (by simp [hu]) t (by simp)) hroom
      have hassoc : ts ++ [t] ++ more = ts ++ t :: more := by simp
      obtain ⟨tab', h⟩ := ih (addWordPosition_parsed hparsed hadd) (by rwa [hassoc]) (by rwa [hassoc])
      refine ⟨tab', ?_⟩
      simp only [addTokens, List.foldlM_cons, hadd, Run.ok_bind]
      exact h

end

theorem Parsed.numElements_eq_zero {tab : WordTable} {ts : List Token} (h : Parsed tab ts) :
    tab.numElements = 0 ↔ ts = [] := by
  rw [h.count, Finset.card_eq_zero, List.toFinset_eq_empty_iff, List.map_eq_nil_iff]

theorem any_nul (fileContents : Bytes) : (cString fileContents).any (fun c => c = 0 || ASCII_UPPER_BOUND < c) =
    (cString fileContents).any fun c => ASCII_UPPER_BOUND < c := by
  rw [Bool.eq_iff_iff, List.any_eq_true, List.any_eq_true]
  refine exists_congr fun c => and_congr_right fun hc => ?_
  have hne : c ≠ 0 := by simpa using List.mem_takeWhile_imp hc
  simp [hne]

theorem parse_eq {fileContents : Bytes} (hlen : fileContents.length < 2 ^ 31) :
    parseIntoWordPositionsTable fileContents =
      if (cString fileContents).any (fun c => ASCII_UPPER_BOUND < c) then .ok none
      else do
        let tab ← HashTable.allocate 32
        let tab ← addTokens tab (tokens fileContents)
        if tab.numElements = 0 then return none
        return some tab := by
  have hle : (cString fileContents).length ≤ fileContents.length :=
    (List.takeWhile_sublist _).length_le
  have hint : toInt (cString fileContents).length = (cString fileContents).length := by
    apply toInt_of_lt
    omega
  simp only [parseIntoWordPositionsTable, hint, Int.toNat_natCast, List.take_length, any_nul, insertContent_eq]
  by_cases hascii : (cString fileContents).any (fun c => ASCII_UPPER_BOUND < c) = true
  · simp [hascii]
  · obtain ⟨tab, halloc, hparsed⟩ := allocate_parsed
    simp only [hascii, tokens, halloc, Run.ok_bind]
    split
    · next hzero =>
      have hnil : cString fileContents = [] := by
        apply List.eq_nil_of_length_eq_zero
        omega
      have hempty : tab.numElements = 0 := hparsed.numElements_eq_zero.mpr rfl
      simp [hnil, scan, addTokens, hempty]
    · simp

attribute [irreducible] parseIntoWordPositionsTable

theorem parse_ok {fileContents : Bytes} {r : Option WordTable} (hlen : fileContents.length < 2 ^ 31)
    (h : parseIntoWordPositionsTable fileContents = .ok r) :
    (r = none ∧ tokens fileContents = []) ∨
      ∃ tab, r = some tab ∧ tokens fileContents ≠ [] ∧ Parsed tab (tokens fileContents) := by
  rw [parse_eq hlen] at h
  by_cases hascii : (cString fileContents).any (fun c => ASCII_UPPER_BOUND < c) = true
  · rw [if_pos hascii] at h
    exact .inl ⟨(Except.ok.inj h).symm, by simp [tokens, hascii]⟩
  · obtain ⟨tab, halloc, hparsed⟩ := allocate_parsed
    rw [if_neg hascii, halloc, Run.ok_bind] at h
    obtain ⟨tab', hadd, h⟩ := Run.bind_eq_ok.mp h
    have hparsed' := addTokens_parsed hparsed hadd
    rw [List.nil_append] at hparsed'
    have hzero := hparsed'.numElements_eq_zero
    split at h
    · next hn => exact .inl ⟨(Except.ok.inj h).symm, hzero.mp hn⟩
    · next hn => exact .inr ⟨tab', (Except.ok.inj h).symm, fun he => hn (hzero.mpr he), hparsed'⟩

/-- The recorded words and the boundaries after them take up the content. -/
theorem space_scan (word : Option Pending) (pos : Nat) (content : Bytes) :
    ByteStrings.space ((scan word pos content).map Token.word) ≤
      content.length + (word.map fun w => w.letters.length).getD 0 := by
  unfold ByteStrings.space
  induction content generalizing word pos with
  | nil => simp [scan]
  | cons c rest ih =>
      unfold scan
      by_cases hc : isalpha c = true
      · rw [if_pos hc]
        have hrest := ih (some (Pending.extend word pos c)) (pos + 1)
        cases word <;> simp [Pending.extend] at hrest ⊢ <;> omega
      · rw [if_neg hc]
        have hrest := ih none (pos + 1)
        cases word with
        | none =>
            simp only [Option.map_none, Option.getD_none, List.length_cons] at hrest ⊢
            omega
        | some w =>
            simp only [Option.map_none, Option.map_some, Option.getD_none, Option.getD_some, List.map_cons,
              List.sum_cons, List.length_cons] at hrest ⊢
            omega

theorem tokens_fit {fileContents : Bytes} (hlen : fileContents.length < 2 ^ 31) :
    3 * bucketsFor 32 (((tokens fileContents).map Token.word).toFinset.card) ≤ INT_MAX := by
  rw [fits_iff (by decide : 0 < 32) (by decide : 3 * (32 * 9 ^ 7) ≤ INT_MAX) (by decide)]
  have hle : (cString fileContents).length ≤ fileContents.length := (List.takeWhile_sublist _).length_le
  have hspace : ByteStrings.space ((tokens fileContents).map Token.word) ≤ (cString fileContents).length := by
    unfold tokens
    split
    · simp [ByteStrings.space]
    · exact space_scan none 0 (cString fileContents)
  have hcard := ByteStrings.card_le 3 ((tokens fileContents).map Token.word)
  omega

theorem parse_new {fileContents : Bytes} (hlen : fileContents.length < 2 ^ 31)
    (hfree : ∀ u ∈ tokens fileContents, ∀ v ∈ tokens fileContents,
      hashString u.word = hashString v.word → u.word = v.word) :
    ∃ r, parseIntoWordPositionsTable fileContents = .ok r := by
  rw [parse_eq hlen]
  split
  · exact ⟨none, rfl⟩
  · obtain ⟨tab, halloc, hparsed⟩ := allocate_parsed
    have hnew : ∃ tab', addTokens tab (tokens fileContents) = .ok tab' :=
      addTokens_new hparsed hfree (tokens_fit hlen)
    obtain ⟨tab', hadd⟩ := hnew
    simp only [halloc, hadd, Run.ok_bind]
    split
    · exact ⟨none, rfl⟩
    · exact ⟨some tab', rfl⟩

def LowerLetters (word : Bytes) : Prop := word ≠ [] ∧ ∀ c ∈ word, 97 ≤ c ∧ c ≤ 122

theorem tolower_letter {c : UInt8} (h : isalpha c = true) : 97 ≤ tolower c ∧ tolower c ≤ 122 := by
  simp only [isalpha, Bool.or_eq_true, Bool.and_eq_true, decide_eq_true_eq, UInt8.le_iff_toNat_le] at h
  simp only [tolower, Bool.and_eq_true, decide_eq_true_eq]
  split
  · next hupper =>
    simp only [UInt8.le_iff_toNat_le] at hupper ⊢
    rw [UInt8.toNat_add]
    simp only [UInt8.reduceToNat] at *
    omega
  · next hupper =>
    simp only [UInt8.le_iff_toNat_le] at hupper ⊢
    simp only [UInt8.reduceToNat] at *
    omega

theorem lowerLetters_extend {word : Option Pending} (hw : ∀ w ∈ word, LowerLetters w.letters) (pos : Nat) {c : UInt8}
    (hc : isalpha c = true) : LowerLetters (Pending.extend word pos c).letters := by
  cases word with
  | none => exact ⟨by simp [Pending.extend], by simpa [Pending.extend] using tolower_letter hc⟩
  | some w =>
      refine ⟨by simp [Pending.extend], ?_⟩
      intro b hb
      rcases List.mem_append.mp hb with hb | hb
      · exact (hw w rfl).2 b hb
      · rw [List.mem_singleton.mp hb]
        exact tolower_letter hc

theorem scan_letters (word : Option Pending) (hw : ∀ w ∈ word, LowerLetters w.letters) (pos : Nat) (content : Bytes) :
    ∀ t ∈ scan word pos content, LowerLetters t.word := by
  induction content generalizing word pos with
  | nil => simp [scan]
  | cons c rest ih =>
      unfold scan
      by_cases hc : isalpha c = true
      · rw [if_pos hc]
        apply ih
        intro w h
        rw [← Option.mem_some.mp h]
        exact lowerLetters_extend hw pos hc
      · rw [if_neg hc]
        have hrest := ih none (by simp) (pos + 1)
        cases word with
        | none => exact hrest
        | some w =>
            intro t ht
            rcases List.mem_cons.mp ht with rfl | ht
            · exact hw w rfl
            · exact hrest t ht

/-- Words are recorded in the order in which they start. -/
theorem scan_ascending (word : Option Pending) (pos : Nat) (hw : ∀ w ∈ word, w.start < pos) (content : Bytes) :
    ((scan word pos content).map Token.pos).Pairwise (· < ·) ∧ ∀ t ∈ scan word pos content,
      (word.elim pos Pending.start) ≤ t.pos ∧ t.pos < pos + content.length := by
  induction content generalizing word pos with
  | nil => simp [scan]
  | cons c rest ih =>
      rw [List.length_cons]
      unfold scan
      by_cases hc : isalpha c = true
      · rw [if_pos hc]
        have hstart : (Pending.extend word pos c).start = word.elim pos Pending.start := by
          cases word <;> rfl
        have hle : word.elim pos Pending.start < pos + 1 := by
          cases word with
          | none => exact Nat.lt_succ_self pos
          | some w => exact Nat.lt_succ_of_lt (hw w rfl)
        obtain ⟨hsorted, hbound⟩ := ih (some (Pending.extend word pos c)) (pos + 1) (by
          intro w h
          rw [← Option.mem_some.mp h, hstart]
          exact hle)
        refine ⟨hsorted, ?_⟩
        intro t ht
        have ht := hbound t ht
        rw [Option.elim_some, hstart] at ht
        omega
      · rw [if_neg hc]
        obtain ⟨hsorted, hbound⟩ := ih none (pos + 1) (by simp)
        simp only [Option.elim_none] at hbound
        cases word with
        | none =>
            refine ⟨hsorted, ?_⟩
            intro t ht
            have ht := hbound t ht
            rw [Option.elim_none]
            omega
        | some w =>
            have hlt := hw w rfl
            simp only [Option.elim_some, List.map_cons, List.pairwise_cons]
            refine ⟨⟨?_, hsorted⟩, ?_⟩
            · intro p hp
              obtain ⟨t, ht, rfl⟩ := List.mem_map.mp hp
              have ht := hbound t ht
              omega
            · intro t ht
              rcases List.mem_cons.mp ht with rfl | ht
              · simp only
                omega
              · have ht := hbound t ht
                omega

theorem tokens_letters {fileContents : Bytes} {t : Token} (ht : t ∈ tokens fileContents) : LowerLetters t.word := by
  unfold tokens at ht
  split at ht
  · cases ht
  · exact scan_letters none (by simp) 0 _ t ht

theorem tokens_ascending (fileContents : Bytes) :
    ((tokens fileContents).map Token.pos).Pairwise (· < ·) ∧
      ∀ t ∈ tokens fileContents, t.pos < fileContents.length := by
  unfold tokens
  split
  · simp
  · obtain ⟨hsorted, hbound⟩ := scan_ascending none 0 (by simp) (cString fileContents)
    refine ⟨hsorted, ?_⟩
    intro t ht
    have hlt := (hbound t ht).2
    have hle : (cString fileContents).length ≤ fileContents.length := (List.takeWhile_sublist _).length_le
    omega

theorem payload_lt {p q : Nat} (h : p < q) (hq : q < 2 ^ 32) : payload p < payload q := by
  rw [UInt64.lt_iff_toNat_lt, payload, payload, UInt32.toNat_toUInt64, UInt32.toNat_toUInt64, UInt32.toNat_ofNat',
    UInt32.toNat_ofNat', Nat.mod_eq_of_lt (Nat.lt_trans h hq), Nat.mod_eq_of_lt hq]
  exact h

section

variable {fileContents : Bytes} {tab : WordTable} {key : UInt64} {wp : WordPositions}

theorem Parsed.letters (h : Parsed tab (tokens fileContents)) (hl : tab.lookup key = some wp) :
    LowerLetters wp.word := by
  obtain ⟨t, ht, hword⟩ := List.mem_map.mp (h.key key wp hl).2
  rw [← hword]
  exact tokens_letters ht

theorem Parsed.positions_ascending (hlen : fileContents.length < 2 ^ 31) (h : Parsed tab (tokens fileContents))
    (hl : tab.lookup key = some wp) :
    wp.positions.payloads ≠ [] ∧ wp.positions.payloads.Pairwise (· < ·) := by
  obtain ⟨hsorted, hbound⟩ := tokens_ascending fileContents
  rw [h.positions key wp hl]
  constructor
  · obtain ⟨t, ht, hword⟩ := List.mem_map.mp (h.key key wp hl).2
    have hmem : t ∈ (tokens fileContents).filter fun t => t.word = wp.word := by simp [ht, hword]
    simpa using List.ne_nil_of_mem hmem
  · rw [List.pairwise_map] at hsorted ⊢
    apply (hsorted.filter _).imp_of_mem
    intro t u _ hu hlt
    have hu := hbound u (List.mem_of_mem_filter hu)
    exact payload_lt hlt (by omega)

end

end FileParser

end SearchEngine
