import SearchEngine.BoostStrings
import SearchEngine.HttpRequest
import Mathlib.Data.UInt

namespace SearchEngine

/-! Operations of std::string. One that is asked for a position out of range
ends the program. -/

namespace StdString

def charAt (s : Bytes) (pos : Nat) : Run UInt8 :=
  match s[pos]? with
  | some c => .ok c
  | none => .error .badAccess

def substr (s : Bytes) (pos n : Nat) : Run Bytes :=
  if pos ≤ s.length then .ok ((s.drop pos).take n) else .error .badAccess

def substrFrom (s : Bytes) (pos : Nat) : Run Bytes :=
  if pos ≤ s.length then .ok (s.drop pos) else .error .badAccess

def replace (s : Bytes) (pos n : Nat) (t : Bytes) : Run Bytes :=
  if pos ≤ s.length then .ok (s.take pos ++ t ++ s.drop (pos + n)) else .error .badAccess

theorem replace_one (front back t : Bytes) (c : UInt8) :
    replace (front ++ c :: back) front.length 1 t = .ok (front ++ t ++ back) := by
  rw [replace, if_pos (by simp), List.take_left, List.drop_length_add_append]
  rfl

def findFirstOf (s chars : Bytes) (pos : Nat) : Option Nat :=
  ((s.drop pos).findIdx? fun c => chars.contains c).map (pos + ·)

def rfind (s : Bytes) (c : UInt8) : Option Nat :=
  (s.reverse.idxOf? c).map fun i => s.length - 1 - i

/-- What c_str is taken for by a C function: it ends at the first zero. -/
def cStr (s : Bytes) : Bytes := s.takeWhile (· ≠ 0)

end StdString

namespace HttpUtils

open StdString

/-- The two quotes, the ampersand and the angle brackets. -/
def unsafeTokens : Bytes := [34, 38, 39, 60, 62]

/-- The cases of the switch. -/
def escapeCode (c : UInt8) : Option Bytes :=
  if c = 34 then some (ascii ['&', 'q', 'u', 'o', 't', ';'])
  else if c = 38 then some (ascii ['&', 'a', 'm', 'p', ';'])
  else if c = 39 then some (ascii ['&', 'a', 'p', 'o', 's', ';'])
  else if c = 60 then some (ascii ['&', 'l', 't', ';'])
  else if c = 62 then some (ascii ['&', 'g', 't', ';'])
  else none

def escapeLoop : Nat → Bytes → Nat → Run Bytes
  | 0, _, _ => .error .outOfFuel
  | rounds + 1, ret, pos =>
      match findFirstOf ret unsafeTokens pos with
      | none => .ok ret
      | some pos => do
          let ret ←
            match escapeCode (ret.getD pos 0) with
            | some code => replace ret pos 1 code
            | none => pure ret
          escapeLoop rounds ret (pos + 1)

def escapeHtml (str : Bytes) : Run Bytes := escapeLoop (str.length + 1) str 0

def escapeChar (c : UInt8) : Bytes := (escapeCode c).getD [c]

theorem findFirstOf_skip {chars done plain todo : Bytes} (h : ∀ c ∈ plain, c ∉ chars) :
    findFirstOf (done ++ plain ++ todo) chars done.length =
      (todo.findIdx? fun c => chars.contains c).map ((done ++ plain).length + ·) := by
  have hplain : plain.findIdx? (fun c => chars.contains c) = none := by
    rw [List.findIdx?_eq_none_iff]
    intro c hc
    simpa using h c hc
  rw [findFirstOf, List.append_assoc, List.drop_left, List.findIdx?_append, hplain, Option.none_or, Option.map_map,
    List.length_append]
  congr 1
  funext i
  simp only [Function.comp_apply]
  omega

theorem escapeCode_isSome {c : UInt8} : (escapeCode c).isSome ↔ c ∈ unsafeTokens := by
  have hset : c ∈ unsafeTokens ↔ c = 34 ∨ c = 38 ∨ c = 39 ∨ c = 60 ∨ c = 62 := by
    simp [unsafeTokens]
  rw [hset, escapeCode]
  by_cases h34 : c = 34
  · simp [h34]
  by_cases h38 : c = 38
  · simp [h38]
  by_cases h39 : c = 39
  · simp [h39]
  by_cases h60 : c = 60
  · simp [h60]
  by_cases h62 : c = 62
  · simp [h62]
  · simp [h34, h38, h39, h60, h62]

/-- The code that is put in for a character starts with an ampersand, and has
no other character that is looked for. -/
theorem escapeCode_tail {c : UInt8} {code : Bytes} (h : escapeCode c = some code) :
    ∃ rest, code = 38 :: rest ∧ ∀ b ∈ rest, b ∉ unsafeTokens := by
  have hcode : code = ascii ['&', 'q', 'u', 'o', 't', ';'] ∨ code = ascii ['&', 'a', 'm', 'p', ';'] ∨
      code = ascii ['&', 'a', 'p', 'o', 's', ';'] ∨
      code = ascii ['&', 'l', 't', ';'] ∨ code = ascii ['&', 'g', 't', ';'] := by
    unfold escapeCode at h
    split_ifs at h <;> simp_all
  rcases hcode with rfl | rfl | rfl | rfl | rfl <;> exact ⟨_, rfl, by simp [unsafeTokens]⟩

theorem escapeLoop_eq (rounds : Nat) (done plain todo : Bytes) (hplain : ∀ c ∈ plain, c ∉ unsafeTokens)
    (hrounds : todo.length < rounds) :
    escapeLoop rounds (done ++ plain ++ todo) done.length = .ok (done ++ plain ++ todo.flatMap escapeChar) := by
  induction todo generalizing rounds done plain with
  | nil =>
      obtain ⟨rounds, rfl⟩ := Nat.exists_eq_succ_of_ne_zero (Nat.ne_of_gt hrounds)
      rw [escapeLoop, findFirstOf_skip hplain]
      rfl
  | cons c todo ih =>
      obtain ⟨rounds, rfl⟩ := Nat.exists_eq_succ_of_ne_zero (Nat.ne_of_gt (Nat.lt_of_le_of_lt (Nat.zero_le _) hrounds))
      have hlen : todo.length < rounds := Nat.lt_of_succ_lt_succ hrounds
      cases hcode : escapeCode c with
      | none =>
          have hsafe : c ∉ unsafeTokens := by
            rw [← escapeCode_isSome, hcode]
            exact Bool.false_ne_true
          have hmore := ih (rounds + 1) done (plain ++ [c]) (by
            intro b hb
            rcases List.mem_append.mp hb with hb | hb
            · exact hplain b hb
            · rwa [List.mem_singleton.mp hb]) (Nat.lt_succ_of_lt hlen)
          rw [List.flatMap_cons, escapeChar, hcode]
          simpa using hmore
      | some code =>
          have hmem : c ∈ unsafeTokens := by
            rw [← escapeCode_isSome, hcode]
            rfl
          obtain ⟨rest, rfl, hrest⟩ := escapeCode_tail hcode
          have hmore := ih rounds (done ++ plain ++ [38]) rest hrest hlen
          have hfound : findFirstOf (done ++ plain ++ c :: todo) unsafeTokens done.length =
              some (done ++ plain).length := by
            rw [findFirstOf_skip hplain, List.findIdx?_cons, List.contains_iff_mem.mpr hmem]
            rfl
          have hchar : (done ++ plain ++ c :: todo).getD (done ++ plain).length 0 = c := by
            simp [List.getD_eq_getElem?_getD]
          rw [escapeLoop, hfound]
          simp only [hchar, hcode, replace_one, Run.ok_bind]
          rw [List.flatMap_cons, escapeChar, hcode]
          simpa [Nat.add_assoc] using hmore

theorem escapeHtml_eq (str : Bytes) : escapeHtml str = .ok (str.flatMap escapeChar) :=
  escapeLoop_eq (str.length + 1) [] [] str (by simp) (Nat.lt_succ_self _)

def toupper (c : UInt8) : UInt8 := if 97 ≤ c && c ≤ 122 then c - 32 else c

def isHexDigit (c : UInt8) : Bool := (48 ≤ c && c ≤ 57) || (65 ≤ c && c ≤ 70)

def hexDigit (c : UInt8) : UInt8 := if 65 ≤ c then 10 + (c - 65) else c - 48

/-- The character that an escape sequence stands for, unless the code is not
reasonable. -/
def percentCode (c2 c3 : UInt8) : Option UInt8 :=
  if isHexDigit c2 && isHexDigit c3 then
    let code := 16 * hexDigit c2 + hexDigit c3
    if 32 ≤ code && code ≤ 127 then some code else none
  else none

/-- The character that is appended, and whether the two that follow belong to
it. -/
def decodeChar (c1 c2 c3 : UInt8) : UInt8 × Bool :=
  if c1 = 43 then (32, false)
  else if c1 ≠ 37 then (c1, false)
  else
    match percentCode c2 c3 with
    | some code => (code, true)
    | none => (c1, false)

/-- The position is an unsigned int. In a string of 2^32 characters or more it
comes around before it reaches the end, and the loop goes on for ever. -/
def decodeLoop (str : Bytes) : Nat → UInt32 → Bytes → Run Bytes
  | 0, _, _ => .error .outOfFuel
  | rounds + 1, pos, retstr =>
      if pos.toNat < str.length then
        let c1 := str.getD pos.toNat 0
        let c2 := if (pos + 1).toNat < str.length then toupper (str.getD (pos + 1).toNat 0) else 32
        let c3 := if (pos + 2).toNat < str.length then toupper (str.getD (pos + 2).toNat 0) else 32
        let (c, escaped) := decodeChar c1 c2 c3
        decodeLoop str rounds (if escaped then pos + 2 + 1 else pos + 1) (retstr ++ [c])
      else .ok retstr

def uriDecode (str : Bytes) : Run Bytes := decodeLoop str (str.length + 1) 0 []

def decoded : Bytes → Bytes
  | c1 :: c2 :: c3 :: rest =>
      let (c, escaped) := decodeChar c1 (toupper c2) (toupper c3)
      c :: if escaped then decoded rest else decoded (c2 :: c3 :: rest)
  | c1 :: rest => (decodeChar c1 32 32).1 :: decoded rest
  | [] => []

theorem decodeChar_short {c2 c3 : UInt8} (h : c2 = 32 ∨ c3 = 32) (c1 : UInt8) :
    decodeChar c1 c2 c3 = ((decodeChar c1 32 32).1, false) := by
  have hnone : percentCode c2 c3 = none := by
    rcases h with rfl | rfl <;> simp [percentCode, isHexDigit]
  have hblank : percentCode 32 32 = none := by simp [percentCode, isHexDigit]
  unfold decodeChar
  rw [hnone, hblank]
  split
  · rfl
  · split <;> rfl

theorem drop_eq_getD {str : Bytes} {pos : Nat} (h : pos < str.length) :
    str.drop pos = str.getD pos 0 :: str.drop (pos + 1) := by
  rw [List.drop_eq_getElem_cons h, List.getD_eq_getElem?_getD, List.getElem?_eq_getElem h]
  rfl

theorem decodeLoop_eq {str : Bytes} (hlen : str.length < 2 ^ 32) (rounds pos : Nat) (retstr : Bytes)
    (hpos : pos ≤ str.length) (hrounds : str.length - pos < rounds) :
    decodeLoop str rounds (UInt32.ofNat pos) retstr = .ok (retstr ++ decoded (str.drop pos)) := by
  induction rounds generalizing pos retstr with
  | zero => omega
  | succ rounds ih =>
      have hat (n : Nat) (hn : n ≤ str.length) : (UInt32.ofNat n).toNat = n :=
        UInt32.toNat_ofNat_of_lt' (Nat.lt_of_le_of_lt hn hlen)
      have hnext (n : Nat) : UInt32.ofNat pos + UInt32.ofNat n = UInt32.ofNat (pos + n) :=
        (UInt32.ofNat_add pos n).symm
      have h1 : UInt32.ofNat pos + 1 = UInt32.ofNat (pos + 1) := hnext 1
      have h2 : UInt32.ofNat pos + 2 = UInt32.ofNat (pos + 2) := hnext 2
      have h3 : UInt32.ofNat (pos + 2) + 1 = UInt32.ofNat (pos + 3) := (UInt32.ofNat_add (pos + 2) 1).symm
      rw [decodeLoop, hat pos hpos, h1, h2, h3]
      dsimp only
      by_cases hin : pos < str.length
      · rw [if_pos hin, hat (pos + 1) hin, drop_eq_getD hin]
        by_cases hin1 : pos + 1 < str.length
        · rw [if_pos hin1, hat (pos + 2) hin1, drop_eq_getD hin1]
          by_cases hin2 : pos + 2 < str.length
          · rw [if_pos hin2, drop_eq_getD hin2, decoded]
            dsimp only
            generalize decodeChar _ _ _ = step
            obtain ⟨c, escaped⟩ := step
            cases escaped with
            | true => simpa [Nat.add_assoc] using ih (pos + 3) (retstr ++ [c]) hin2 (by omega)
            | false => simpa [drop_eq_getD hin1, drop_eq_getD hin2] using ih (pos + 1) (retstr ++ [c]) hin (by omega)
          · have hone : str.drop (pos + 2) = [] := List.drop_eq_nil_of_le (Nat.le_of_not_lt hin2)
            have hrest := ih (pos + 1) (retstr ++ [(decodeChar (str.getD pos 0) 32 32).1]) hin (by omega)
            rw [if_neg hin2, decodeChar_short (.inr rfl), hone, decoded]
            · rw [drop_eq_getD hin1, hone] at hrest
              simpa using hrest
            · simp
        · have hnone : str.drop (pos + 1) = [] := List.drop_eq_nil_of_le (Nat.le_of_not_lt hin1)
          have hrest := ih (pos + 1) (retstr ++ [(decodeChar (str.getD pos 0) 32 32).1]) hin (by omega)
          rw [if_neg hin1, decodeChar_short (.inl rfl), hnone, decoded]
          · rw [hnone] at hrest
            simpa using hrest
          · simp
      · have hend : str.drop pos = [] := List.drop_eq_nil_of_le (Nat.le_of_not_lt hin)
        rw [if_neg hin, hend, decoded, List.append_nil]

theorem uriDecode_eq {str : Bytes} (hlen : str.length < 2 ^ 32) : uriDecode str = .ok (decoded str) :=
  decodeLoop_eq hlen (str.length + 1) 0 [] (Nat.zero_le _) (Nat.lt_succ_self _)

theorem decodeLoop_hangs {str : Bytes} (hlen : 2 ^ 32 ≤ str.length) (rounds : Nat) (pos : UInt32) (retstr : Bytes) :
    decodeLoop str rounds pos retstr = .error .outOfFuel := by
  induction rounds generalizing pos retstr with
  | zero => rfl
  | succ rounds ih =>
      have hpos : pos.toNat < str.length := Nat.lt_of_lt_of_le pos.toNat_lt hlen
      rw [decodeLoop, if_pos hpos]
      exact ih _ _

theorem uriDecode_iff (str : Bytes) : (∃ r, uriDecode str = .ok r) ↔ str.length < 2 ^ 32 := by
  constructor
  · rintro ⟨r, hr⟩
    apply Nat.lt_of_not_le
    intro hlen
    rw [uriDecode, decodeLoop_hangs hlen] at hr
    cases hr
  · intro hlen
    exact ⟨decoded str, uriDecode_eq hlen⟩

theorem uriDecode_error {str : Bytes} {e : Fault} (h : uriDecode str = .error e) : e = .outOfFuel := by
  rcases Nat.lt_or_ge str.length (2 ^ 32) with hlen | hlen
  · rw [uriDecode_eq hlen] at h
    cases h
  · rw [uriDecode, decodeLoop_hangs hlen] at h
    exact (Except.error.inj h).symm

end HttpUtils

structure URLParser where
  url : Bytes
  path : Bytes
  args : AList fun _ : Bytes => Bytes

namespace URLParser

open HttpUtils

def init : URLParser := ⟨[], [], ∅⟩

/-- One chunk of the args. It counts when it has exactly one equals sign. -/
def addArg (args : AList fun _ : Bytes => Bytes) (val : Bytes) : Run (AList fun _ : Bytes => Bytes) :=
  match Boost.split (fun b => b == 61) val with
  | [field, value] => do
      let value ← uriDecode value
      let field ← uriDecode field
      return args.insert field value
  | _ => return args

/-- The loop counts the chunks with an unsigned int as well. -/
def addArgs (args : AList fun _ : Bytes => Bytes) (vals : List Bytes) : Run (AList fun _ : Bytes => Bytes) :=
  if vals.length < 2 ^ 32 then vals.foldlM addArg args else .error .outOfFuel

/-- The maps of earlier calls stay. -/
def parse (p : URLParser) (url : Bytes) : Run URLParser :=
  match Boost.split (fun b => b == 63) url with
  | [] => return { p with url := url }
  | [path] => do
      let path ← uriDecode path
      return { p with url := url, path := path }
  | path :: args :: _ => do
      let path ← uriDecode path
      let args ← addArgs p.args (Boost.split (fun b => b == 38) args)
      return ⟨url, path, args⟩

/-- operator[] of the map that args() returns: a field without a value has the
empty one. -/
def arg (p : URLParser) (field : Bytes) : Bytes := (p.args.lookup field).getD []

/-- The two sides of a chunk, if it counts, are short enough for URIDecode. -/
def ShortArg (val : Bytes) : Prop :=
  ∀ field value, Boost.split (fun b => b == 61) val = [field, value] → field.length < 2 ^ 32 ∧ value.length < 2 ^ 32

/-- So are all parts of a URL, and the chunks can be counted. -/
def ShortUrl (url : Bytes) : Prop :=
  match Boost.split (fun b => b == 63) url with
  | [] => True
  | [path] => path.length < 2 ^ 32
  | path :: args :: _ => path.length < 2 ^ 32 ∧ (Boost.split (fun b => b == 38) args).length < 2 ^ 32 ∧
      ∀ val ∈ Boost.split (fun b => b == 38) args, ShortArg val

def insertArg (args : AList fun _ : Bytes => Bytes) (val : Bytes) : AList fun _ : Bytes => Bytes :=
  match Boost.split (fun b => b == 61) val with
  | [field, value] => args.insert (decoded field) (decoded value)
  | _ => args

/-- What Parse leaves in the parser when it comes to an end. -/
def parsed (p : URLParser) (url : Bytes) : URLParser :=
  match Boost.split (fun b => b == 63) url with
  | [] => { p with url := url }
  | [path] => { p with url := url, path := decoded path }
  | path :: args :: _ => ⟨url, decoded path, (Boost.split (fun b => b == 38) args).foldl insertArg p.args⟩

theorem addArg_short {val : Bytes} (h : ShortArg val) (args : AList fun _ : Bytes => Bytes) :
    addArg args val = .ok (insertArg args val) := by
  unfold addArg insertArg
  split
  · next field value hsplit =>
    obtain ⟨hfield, hvalue⟩ := h field value hsplit
    rw [uriDecode_eq hvalue, Run.ok_bind, uriDecode_eq hfield]
    rfl
  · rfl

theorem short_of_addArg {args args' : AList fun _ : Bytes => Bytes} {val : Bytes} (h : addArg args val = .ok args') :
    ShortArg val := by
  intro field value hsplit
  rw [addArg, hsplit] at h
  obtain ⟨v, hvalue, h⟩ := Run.bind_eq_ok.mp h
  obtain ⟨f, hfield, _⟩ := Run.bind_eq_ok.mp h
  exact ⟨(uriDecode_iff field).mp ⟨f, hfield⟩, (uriDecode_iff value).mp ⟨v, hvalue⟩⟩

theorem foldlM_short {vals : List Bytes} (h : ∀ val ∈ vals, ShortArg val) (args : AList fun _ : Bytes => Bytes) :
    vals.foldlM addArg args = .ok (vals.foldl insertArg args) := by
  induction vals generalizing args with
  | nil => rfl
  | cons val vals ih =>
      rw [List.foldlM_cons, addArg_short (h val (by simp)), Run.ok_bind, List.foldl_cons]
      exact ih (fun v hv => h v (by simp [hv])) _

theorem short_of_foldlM {vals : List Bytes} {args args' : AList fun _ : Bytes => Bytes}
    (h : vals.foldlM addArg args = .ok args') : ∀ val ∈ vals, ShortArg val := by
  induction vals generalizing args with
  | nil => simp
  | cons val vals ih =>
      rw [List.foldlM_cons] at h
      obtain ⟨args₁, hone, h⟩ := Run.bind_eq_ok.mp h
      exact List.forall_mem_cons.mpr ⟨short_of_addArg hone, ih h⟩

theorem parse_short {url : Bytes} (h : ShortUrl url) (p : URLParser) : p.parse url = .ok (p.parsed url) := by
  unfold ShortUrl at h
  unfold parse parsed
  split at h
  · rfl
  · rw [uriDecode_eq h]
    rfl
  · next path args rest _ =>
    obtain ⟨hpath, hcount, hargs⟩ := h
    rw [uriDecode_eq hpath, Run.ok_bind, addArgs, if_pos hcount, foldlM_short hargs]
    rfl

theorem parse_iff (p : URLParser) (url : Bytes) : (∃ p', p.parse url = .ok p') ↔ ShortUrl url := by
  constructor
  · rintro ⟨p', h⟩
    unfold parse at h
    unfold ShortUrl
    split at h
    · trivial
    · obtain ⟨path', hpath, _⟩ := Run.bind_eq_ok.mp h
      exact (uriDecode_iff _).mp ⟨path', hpath⟩
    · next path args rest _ =>
      obtain ⟨path', hpath, h⟩ := Run.bind_eq_ok.mp h
      obtain ⟨args', hargs, _⟩ := Run.bind_eq_ok.mp h
      rw [addArgs] at hargs
      split at hargs
      · next hcount => exact ⟨(uriDecode_iff path).mp ⟨path', hpath⟩, hcount, short_of_foldlM hargs⟩
      · cases hargs
  · intro h
    exact ⟨_, parse_short h p⟩

theorem addArg_error {args : AList fun _ : Bytes => Bytes} {val : Bytes} {e : Fault} (h : addArg args val = .error e) :
    e = .outOfFuel := by
  unfold addArg at h
  split at h
  · rcases Run.bind_eq_error.mp h with hvalue | ⟨v, _, h⟩
    · exact uriDecode_error hvalue
    · rcases Run.bind_eq_error.mp h with hfield | ⟨f, _, h⟩
      · exact uriDecode_error hfield
      · cases h
  · cases h

theorem addArgs_error {vals : List Bytes} {args : AList fun _ : Bytes => Bytes} {e : Fault}
    (h : addArgs args vals = .error e) : e = .outOfFuel := by
  have hfold : ∀ args, vals.foldlM addArg args = .error e → e = .outOfFuel := by
    clear h
    induction vals with
    | nil =>
        intro args h
        cases h
    | cons val vals ih =>
        intro args h
        rw [List.foldlM_cons] at h
        rcases Run.bind_eq_error.mp h with hone | ⟨args', _, h⟩
        · exact addArg_error hone
        · exact ih args' h
  unfold addArgs at h
  split at h
  · exact hfold args h
  · exact (Except.error.inj h).symm

/-- Parse fails in one way: it does not come to an end. -/
theorem parse_error {p : URLParser} {url : Bytes} {e : Fault} (h : p.parse url = .error e) : e = .outOfFuel := by
  unfold parse at h
  split at h
  · cases h
  · rcases Run.bind_eq_error.mp h with hpath | ⟨path', _, h⟩
    · exact uriDecode_error hpath
    · cases h
  · rcases Run.bind_eq_error.mp h with hpath | ⟨path', _, h⟩
    · exact uriDecode_error hpath
    · rcases Run.bind_eq_error.mp h with hargs | ⟨args', _, h⟩
      · exact addArgs_error hargs
      · cases h

end URLParser

end SearchEngine
