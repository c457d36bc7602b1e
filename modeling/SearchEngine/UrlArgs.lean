import SearchEngine.Library.LastBinding
import SearchEngine.PercentEncoding

/-! What a URLParser makes of a URL that was put together from a path and
arguments, and of one URL after another. -/

namespace SearchEngine

/-- Without token_compress, words without the delimiter come back as they were
joined, empty ones too. -/
theorem Boost.split_joined {isDelim : UInt8 → Bool} {d : UInt8} (hd : isDelim d = true) {words : List Bytes}
    (hwords : words ≠ []) (h : ∀ w ∈ words, ∀ b ∈ w, isDelim b = false) :
    Boost.split isDelim ([d].intercalate words) = words := by
  induction words with
  | nil => exact absurd rfl hwords
  | cons w words ih =>
      have hclear := h w List.mem_cons_self
      cases words with
      | nil => rw [List.intercalate_singleton, split_clear hclear]
      | cons w' words =>
          have hrest := ih (List.cons_ne_nil w' words) fun v hv => h v (List.mem_cons_of_mem w hv)
          rw [List.intercalate_cons_cons, List.append_assoc, List.singleton_append, split_token hclear hd, hrest]

theorem Boost.not_mem_joined {c d : UInt8} (hc : c ≠ d) {words : List Bytes} (h : ∀ w ∈ words, c ∉ w) :
    c ∉ [d].intercalate words := by
  induction words with
  | nil => simp
  | cons w words ih =>
      have hrest := ih fun v hv => h v (List.mem_cons_of_mem w hv)
      cases words with
      | nil => simpa using h w List.mem_cons_self
      | cons w' words =>
          rw [List.intercalate_cons_cons]
          simp only [List.mem_append, List.mem_singleton, not_or]
          exact ⟨⟨h w List.mem_cons_self, hc⟩, hrest⟩

namespace URLParser

open HttpUtils LastBinding

/-- The field and the value of a chunk that counts. -/
def binding (val : Bytes) : Option (Bytes × Bytes) :=
  match Boost.split (fun b => b == 61) val with
  | [field, value] => some (decoded field, decoded value)
  | _ => none

def bindings (url : Bytes) : List (Bytes × Bytes) :=
  match Boost.split (fun b => b == 63) url with
  | _ :: args :: _ => (Boost.split (fun b => b == 38) args).filterMap binding
  | _ => []

def pathOf (url : Bytes) : Bytes := decoded ((Boost.split (fun b => b == 63) url).headD [])

theorem foldl_insertArg (vals : List Bytes) (args : AList fun _ : Bytes => Bytes) :
    vals.foldl insertArg args = bindAll args (vals.filterMap binding) := by
  induction vals generalizing args with
  | nil => rfl
  | cons val vals ih =>
      rw [List.foldl_cons, ih]
      unfold insertArg
      split
      · next field value hsplit =>
        have hbinding : binding val = some (decoded field, decoded value) := by rw [binding, hsplit]
        rw [List.filterMap_cons_some hbinding]
        rfl
      · next hnot =>
        have hbinding : binding val = none := by
          unfold binding
          split
          · next field value hsplit => exact absurd hsplit (hnot field value)
          · rfl
        rw [List.filterMap_cons_none hbinding]

theorem parsed_args (p : URLParser) (url : Bytes) : (p.parsed url).args = bindAll p.args (bindings url) := by
  unfold parsed bindings
  split
  · next hnil => rw [hnil]; rfl
  · next hone => rw [hone]; rfl
  · next hmore =>
    rw [hmore]
    exact foldl_insertArg _ _

theorem parsed_path (p : URLParser) (url : Bytes) : (p.parsed url).path = pathOf url := by
  have hsplit := Boost.split_ne_nil (fun b => b == 63) url
  unfold parsed pathOf
  split
  · next hnil => exact absurd hnil hsplit
  · next hone => rw [hone]; rfl
  · next hmore => rw [hmore]; rfl

theorem parse_ok {p p' : URLParser} {url : Bytes} (h : p.parse url = .ok p') : p' = p.parsed url := by
  have hshort := (parse_iff p url).mp ⟨p', h⟩
  rw [parse_short hshort] at h
  exact (Except.ok.inj h).symm

/-- A component of a URL and its percent-encoding. -/
structure Component where
  text : Bytes
  encoded : Bytes
  encodes : Encodes text encoded
  noQuery : 63 ∉ encoded
  noAmpersand : 38 ∉ encoded
  noEquals : 61 ∉ encoded

structure Pair where
  field : Component
  value : Component

def Pair.bytes (p : Pair) : Bytes := p.field.encoded ++ 61 :: p.value.encoded

/-- A path with arguments. -/
structure BuiltUrl where
  path : Component
  pairs : List Pair
  nonempty : pairs ≠ []

namespace BuiltUrl

variable (u : BuiltUrl)

def bytes : Bytes := u.path.encoded ++ 63 :: [38].intercalate (u.pairs.map Pair.bytes)

/-- The value of the last pair with this field. -/
def lastValue (field : Bytes) : Option Bytes :=
  (u.pairs.reverse.find? fun p => p.field.text = field).map fun p => p.value.text

end BuiltUrl

theorem beq_false_of_not_mem {c : UInt8} {s : Bytes} (h : c ∉ s) : ∀ b ∈ s, (b == c) = false := by
  intro b hb
  rw [beq_eq_false_iff_ne]
  rintro rfl
  exact h hb

theorem split_pair (p : Pair) :
    Boost.split (fun b => b == 61) p.bytes = [p.field.encoded, p.value.encoded] := by
  rw [Pair.bytes, Boost.split_token (beq_false_of_not_mem p.field.noEquals) rfl,
    Boost.split_clear (beq_false_of_not_mem p.value.noEquals)]

theorem binding_pair (p : Pair) : binding p.bytes = some (p.field.text, p.value.text) := by
  rw [binding, split_pair]
  dsimp only
  rw [decoded_encodes p.field.encodes, decoded_encodes p.value.encodes]

theorem pair_clear {p : Pair} {c : UInt8} (hfield : c ∉ p.field.encoded) (hvalue : c ∉ p.value.encoded) (hc : c ≠ 61) :
    c ∉ p.bytes := by
  simp [Pair.bytes, hfield, hvalue, hc]

namespace BuiltUrl

variable (u : BuiltUrl)

theorem split_args :
    Boost.split (fun b => b == 38) ([38].intercalate (u.pairs.map Pair.bytes)) = u.pairs.map Pair.bytes := by
  apply Boost.split_joined rfl (by simpa using u.nonempty)
  intro w hw
  obtain ⟨p, _, rfl⟩ := List.mem_map.mp hw
  exact beq_false_of_not_mem (pair_clear p.field.noAmpersand p.value.noAmpersand (by decide))

theorem args_clear : 63 ∉ [38].intercalate (u.pairs.map Pair.bytes) := by
  apply Boost.not_mem_joined (by decide)
  intro w hw
  obtain ⟨p, _, rfl⟩ := List.mem_map.mp hw
  exact pair_clear p.field.noQuery p.value.noQuery (by decide)

theorem split_url : Boost.split (fun b => b == 63) u.bytes =
    [u.path.encoded, [38].intercalate (u.pairs.map Pair.bytes)] := by
  rw [bytes, Boost.split_token (beq_false_of_not_mem u.path.noQuery) rfl,
    Boost.split_clear (beq_false_of_not_mem u.args_clear)]

theorem bindings_eq : bindings u.bytes = u.pairs.map fun p => (p.field.text, p.value.text) := by
  rw [bindings, u.split_url]
  dsimp only
  rw [u.split_args, List.filterMap_map, ← List.filterMap_eq_map]
  exact List.filterMap_congr fun p _ => binding_pair p

theorem last_bindings (field : Bytes) : last (bindings u.bytes) field = u.lastValue field := by
  rw [last, u.bindings_eq, lastValue, ← List.map_reverse, List.find?_map, Option.map_map]
  rfl

theorem path_eq : pathOf u.bytes = u.path.text := by
  rw [pathOf, u.split_url]
  exact decoded_encodes u.path.encodes

/-- The parts are short enough for the counters of the parser. -/
structure Short : Prop where
  path : u.path.encoded.length < 2 ^ 32
  count : u.pairs.length < 2 ^ 32
  parts : ∀ p ∈ u.pairs, p.field.encoded.length < 2 ^ 32 ∧ p.value.encoded.length < 2 ^ 32

theorem short_iff : ShortUrl u.bytes ↔ u.Short := by
  have hargs : (∀ val ∈ u.pairs.map Pair.bytes, ShortArg val) ↔
      ∀ p ∈ u.pairs, p.field.encoded.length < 2 ^ 32 ∧ p.value.encoded.length < 2 ^ 32 := by
    rw [List.forall_mem_map]
    refine forall₂_congr fun p _ => ?_
    rw [ShortArg, split_pair]
    constructor
    · intro h
      exact h _ _ rfl
    · rintro ⟨hfield, hvalue⟩ field value hsplit
      obtain ⟨rfl, hvalues⟩ := List.cons.inj hsplit
      obtain ⟨rfl, _⟩ := List.cons.inj hvalues
      exact ⟨hfield, hvalue⟩
  rw [ShortUrl, u.split_url]
  dsimp only
  rw [u.split_args, hargs, List.length_map]
  constructor
  · rintro ⟨hpath, hcount, hparts⟩
    exact ⟨hpath, hcount, hparts⟩
  · rintro ⟨hpath, hcount, hparts⟩
    exact ⟨hpath, hcount, hparts⟩

/-- A fresh parser takes the URL apart into what it was put together from. -/
def Recovered : Prop :=
  ∃ p, URLParser.init.parse u.bytes = .ok p ∧ p.path = u.path.text ∧ ∀ field, p.args.lookup field = u.lastValue field

theorem recovered_iff : u.Recovered ↔ u.Short := by
  rw [← u.short_iff]
  constructor
  · rintro ⟨p, hp, _⟩
    exact (parse_iff URLParser.init u.bytes).mp ⟨p, hp⟩
  · intro hshort
    refine ⟨_, parse_short hshort URLParser.init, by rw [parsed_path, u.path_eq], fun field => ?_⟩
    rw [parsed_args, lookup_bindAll, u.last_bindings]
    exact Option.or_none

end BuiltUrl

/-- Letters, which encode themselves. -/
def letters (n : Nat) : Component where
  text := List.replicate n 97
  encoded := List.replicate n 97
  encodes := by
    apply encodes_itself
    intro c hc
    rw [List.eq_of_mem_replicate hc]
    decide
  noQuery := fun h => absurd (List.eq_of_mem_replicate h) (by decide)
  noAmpersand := fun h => absurd (List.eq_of_mem_replicate h) (by decide)
  noEquals := fun h => absurd (List.eq_of_mem_replicate h) (by decide)

def lettersUrl (n : Nat) : BuiltUrl := ⟨letters n, [⟨letters 1, letters 1⟩], List.cons_ne_nil _ _⟩

theorem lettersUrl_short {n : Nat} (h : (lettersUrl n).Recovered) : n < 2 ^ 32 := by
  obtain ⟨p, hp, _⟩ := h
  have hpath := ((lettersUrl n).short_iff.mp ((parse_iff URLParser.init _).mp ⟨p, hp⟩)).path
  have hlen : (lettersUrl n).path.encoded.length = n := List.length_replicate
  rwa [hlen] at hpath

/-- A path of 2^32 letters is never read to its end. -/
theorem not_all_recovered : ¬∀ u : BuiltUrl, u.Recovered := fun h =>
  Nat.lt_irrefl _ (lettersUrl_short (h (lettersUrl (2 ^ 32))))

/-- One call of Parse after another on the same parser. -/
def parseAll (p : URLParser) (urls : List Bytes) : Run URLParser := urls.foldlM parse p

theorem parseAll_cons (p : URLParser) (url : Bytes) (urls : List Bytes) :
    p.parseAll (url :: urls) = p.parse url >>= fun p => p.parseAll urls :=
  List.foldlM_cons

theorem parseAll_iff {p p' : URLParser} {urls : List Bytes} :
    p.parseAll urls = .ok p' ↔ (∀ url ∈ urls, ShortUrl url) ∧ p' = urls.foldl parsed p := by
  induction urls generalizing p with
  | nil =>
      constructor
      · intro h
        cases h
        exact ⟨by simp, rfl⟩
      · rintro ⟨_, rfl⟩
        rfl
  | cons url urls ih =>
      rw [parseAll_cons, Run.bind_eq_ok, List.forall_mem_cons]
      constructor
      · rintro ⟨p₁, hone, hrest⟩
        obtain rfl := parse_ok hone
        obtain ⟨hshort, rfl⟩ := ih.mp hrest
        exact ⟨⟨(parse_iff p url).mp ⟨_, hone⟩, hshort⟩, rfl⟩
      · rintro ⟨⟨hone, hrest⟩, rfl⟩
        exact ⟨_, parse_short hone p, ih.mpr ⟨hrest, rfl⟩⟩

/-- The arguments of all the URLs are in the map. -/
theorem foldl_parsed_args (urls : List Bytes) (p : URLParser) :
    (urls.foldl parsed p).args = bindAll p.args (urls.flatMap bindings) := by
  induction urls generalizing p with
  | nil => rfl
  | cons url urls ih => rw [List.foldl_cons, ih, parsed_args, ← bindAll_append, List.flatMap_cons]

def fields (url : Bytes) : List Bytes := (bindings url).map Prod.fst

/-- After the last call, path() and args() are those of a parser that only ever
saw the last URL. -/
def Memoryless (urls : List Bytes) (url : Bytes) : Prop :=
  ∀ p, URLParser.init.parseAll (urls ++ [url]) = .ok p →
    ∃ fresh, URLParser.init.parse url = .ok fresh ∧ p.path = fresh.path ∧
      ∀ field, p.args.lookup field = fresh.args.lookup field

theorem lookup_after (urls : List Bytes) (url field : Bytes) :
    ((urls ++ [url]).foldl parsed URLParser.init).args.lookup field =
      ((URLParser.init.parsed url).args.lookup field).or (last (urls.flatMap bindings) field) := by
  rw [foldl_parsed_args, parsed_args, lookup_bindAll, lookup_bindAll, List.flatMap_append, last_append,
    List.flatMap_singleton]
  have hinit : URLParser.init.args.lookup field = none := rfl
  rw [hinit, Option.or_none, Option.or_none]

theorem lookup_parsed_init (url field : Bytes) :
    (URLParser.init.parsed url).args.lookup field = last (bindings url) field := by
  rw [parsed_args, lookup_bindAll]
  exact Option.or_none

/-- The parser shows nothing of earlier URLs exactly when the last one binds
all of their fields again, unless a call does not come to an end. -/
theorem memoryless_iff (urls : List Bytes) (url : Bytes) :
    Memoryless urls url ↔
      ((∀ u ∈ urls ++ [url], ShortUrl u) → ∀ earlier ∈ urls, ∀ field ∈ fields earlier, field ∈ fields url) := by
  constructor
  · intro h hshort earlier hearlier field hfield
    obtain ⟨fresh, hfresh, _, hargs⟩ := h _ (parseAll_iff.mpr ⟨hshort, rfl⟩)
    obtain rfl := parse_ok hfresh
    have hsame := hargs field
    rw [lookup_after, lookup_parsed_init] at hsame
    by_contra hnot
    rw [last_eq_none.mpr hnot, Option.none_or, last_eq_none] at hsame
    refine hsame ?_
    rw [List.map_flatMap, List.mem_flatMap]
    exact ⟨earlier, hearlier, hfield⟩
  · intro h p hp
    obtain ⟨hshort, rfl⟩ := parseAll_iff.mp hp
    refine ⟨_, parse_short (hshort url (by simp)) URLParser.init, ?_, fun field => ?_⟩
    · rw [List.foldl_append, List.foldl_cons, List.foldl_nil, parsed_path, parsed_path]
    · rw [lookup_after, lookup_parsed_init]
      cases hlast : last (bindings url) field with
      | some value => rfl
      | none =>
          have hnot := last_eq_none.mp hlast
          rw [Option.none_or, last_eq_none, List.map_flatMap, List.mem_flatMap]
          rintro ⟨earlier, hearlier, hfield⟩
          exact hnot (h hshort earlier hearlier field hfield)

/-- The argument of /a?x=1 is still there after /b. -/
theorem not_memoryless : ¬∀ urls url, Memoryless urls url := by
  intro h
  have hends : ∀ u ∈ [ascii "/a?x=1".toList, ascii "/b".toList], (URLParser.init.parse u).toOption.isSome = true := by
    decide +kernel
  have hshort : ∀ u ∈ [ascii "/a?x=1".toList] ++ [ascii "/b".toList], ShortUrl u := by
    intro u hu
    apply (parse_iff URLParser.init u).mp
    have hsome := hends u hu
    cases hparse : URLParser.init.parse u with
    | ok p => exact ⟨p, rfl⟩
    | error e =>
        rw [hparse] at hsome
        cases hsome
  obtain ⟨fresh, hfresh, _, hargs⟩ := h [ascii "/a?x=1".toList] (ascii "/b".toList) _ (parseAll_iff.mpr ⟨hshort, rfl⟩)
  obtain rfl := parse_ok hfresh
  have hsame := hargs (ascii ['x'])
  rw [lookup_after, lookup_parsed_init] at hsame
  exact absurd hsame (by decide)

end URLParser

end SearchEngine
