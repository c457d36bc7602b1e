import SearchEngine.ProcessRequest

/-! What a static file request can be answered with. -/

namespace SearchEngine

open HttpUtils Separated StdString

theorem Framing.find_eq_zero {α : Type} [BEq α] [LawfulBEq α] {pat s : List α} :
    Framing.find pat s = some 0 ↔ pat <+: s := by
  cases s with
  | nil => cases pat <;> simp [Framing.find]
  | cons a s =>
      rw [Framing.find]
      by_cases hstart : pat <+: a :: s
      · simp [hstart]
      · simp [hstart]

namespace AbsPath

theorem no_slash (p : AbsPath) : ∀ c ∈ p.components, 47 ∉ c := fun c hc => (p.proper c hc).1.noSlash

/-- The test for a slash at the end: every path gets one, and the root keeps
its own. -/
theorem with_slash (p : AbsPath) : ∃ last, charAt p.toBytes (p.toBytes.length - 1) = .ok last ∧
    (if last ≠ 47 then p.toBytes ++ [47] else p.toBytes) = joined 47 p.components ++ [47] := by
  unfold toBytes
  by_cases hroot : p.components = []
  · rw [if_pos hroot, hroot]
    exact ⟨47, rfl, rfl⟩
  · obtain ⟨front, c, hsplit⟩ := (List.eq_nil_or_concat' p.components).resolve_left hroot
    have hmem : c ∈ p.components := by simp [hsplit]
    obtain ⟨c', b, hlast⟩ := (List.eq_nil_or_concat' c).resolve_left (p.proper c hmem).1.nonempty
    have hb : b ≠ 47 := by
      rintro rfl
      exact p.no_slash c hmem (by simp [hlast])
    have hbytes : joined 47 p.components = joined 47 front ++ 47 :: c' ++ [b] := by
      rw [hsplit, joined_append, joined_cons, joined_nil, hlast]
      simp
    rw [if_neg hroot]
    refine ⟨b, ?_, if_pos hb⟩
    rw [hbytes, charAt]
    simp

/-- Where the path of one begins the path of another: only for the root itself
does the test not tell it from what is below it. -/
theorem prefix_iff (root test : AbsPath) :
    joined 47 root.components ++ [47] <+: test.toBytes ↔
      root.Below test ∨ root.components = [] ∧ test.components = [] := by
  unfold toBytes Below
  by_cases htest : test.components = []
  · rw [if_pos htest, htest]
    cases hroot : root.components with
    | nil => simp
    | cons c cs =>
        constructor
        · intro hstart
          have := hstart.length_le
          simp at this
        · simp
  · rw [if_neg htest, joined_prefix_iff root.no_slash test.no_slash]
    simp [htest]

end AbsPath

namespace HttpUtils

/-- Both paths resolve, the one to a directory strictly above the other. -/
def ContainsPath (fs : FileSystem) (rootDir testFile : Bytes) : Prop :=
  ∃ root test, fs.realpath (cStr rootDir) = some root ∧ fs.realpath (cStr testFile) = some test ∧ root.Below test

/-- Both are names of the root of the file system. -/
def BothRoot (fs : FileSystem) (rootDir testFile : Bytes) : Prop :=
  ∃ root test, fs.realpath (cStr rootDir) = some root ∧ fs.realpath (cStr testFile) = some test ∧
    root.components = [] ∧ test.components = []

theorem isPathSafe_spec (fs : FileSystem) (rootDir testFile : Bytes) :
    ∃ safe, isPathSafe fs rootDir testFile = .ok safe ∧
      (safe = true ↔ ContainsPath fs rootDir testFile ∨ BothRoot fs rootDir testFile) := by
  unfold isPathSafe ContainsPath BothRoot
  cases hroot : fs.realpath (cStr rootDir) with
  | none => exact ⟨false, rfl, by simp⟩
  | some root =>
      cases htest : fs.realpath (cStr testFile) with
      | none => exact ⟨false, rfl, by simp⟩
      | some test =>
          obtain ⟨last, hlast, hslash⟩ := root.with_slash
          have haccess : fs.access test.toBytes = true := by
            rw [FileSystem.access, fs.canonical htest]
            rfl
          have hstart := root.prefix_iff test
          simp only [hlast, Run.ok_bind, hslash, haccess]
          have hspec : (∃ root' test', some root = some root' ∧ some test = some test' ∧ root'.Below test') ∨
              (∃ root' test', some root = some root' ∧ some test = some test' ∧ root'.components = [] ∧
                test'.components = []) ↔
              Framing.find (joined 47 root.components ++ [47]) test.toBytes = some 0 := by
            rw [Framing.find_eq_zero, hstart]
            simp
          rw [hspec]
          by_cases hfind : Framing.find (joined 47 root.components ++ [47]) test.toBytes = some 0
          · exact ⟨true, by simp [hfind], by simp [hfind]⟩
          · exact ⟨false, by simp [hfind], by simp [hfind]⟩

theorem not_contains_of_bothRoot {fs : FileSystem} {rootDir testFile : Bytes} (h : BothRoot fs rootDir testFile) :
    ¬ContainsPath fs rootDir testFile := by
  obtain ⟨root, test, hroot, htest, hr, ht⟩ := h
  rintro ⟨root', test', hroot', htest', hbelow⟩
  obtain rfl := Option.some.inj (hroot.symm.trans hroot')
  obtain rfl := Option.some.inj (htest.symm.trans htest')
  exact hbelow.2 (hr.trans ht.symm)

theorem isPathSafe_contains_iff (fs : FileSystem) (rootDir testFile : Bytes) :
    (isPathSafe fs rootDir testFile = .ok true ↔ ContainsPath fs rootDir testFile) ↔ ¬BothRoot fs rootDir testFile := by
  obtain ⟨safe, hsafe, hspec⟩ := isPathSafe_spec fs rootDir testFile
  rw [hsafe, Except.ok.injEq, hspec]
  constructor
  · intro hsame hboth
    exact not_contains_of_bothRoot hboth (hsame.mp (.inr hboth))
  · intro hnot
    exact or_iff_left hnot

end HttpUtils

namespace FileParser

/-- The length as an int is not negative. -/
def FitsInt (n : Nat) : Prop := n % 2 ^ 32 < 2 ^ 31

instance (n : Nat) : Decidable (FitsInt n) := inferInstanceAs (Decidable (_ < _))

theorem int32_fits {n : Nat} (h : FitsInt n) : int32 n = ((n % 2 ^ 32 : Nat) : Int) := by
  unfold FitsInt at h
  rw [int32, Int.bmod_def]
  split <;> omega

theorem int32_neg {n : Nat} (h : ¬FitsInt n) : int32 n < 0 := by
  unfold FitsInt at h
  rw [int32, Int.bmod_def]
  split <;> omega

/-- The bytes that a read gets after the first k. -/
theorem read_part {contents : Bytes} {k m : Nat} (h : k + m ≤ contents.length) :
    contents.take k ++ (contents.drop (contents.take k).length).take m = contents.take (k + m) ∧
      ((contents.drop (contents.take k).length).take m).length = m := by
  rw [List.length_take, Nat.min_eq_left (by omega), ← List.take_add, List.length_take, List.length_drop]
  exact ⟨rfl, by omega⟩

/-- The loop gets the whole file, if none of the reads fails. -/
theorem readLoop_unchanging {contents : Bytes} {reads : List ReadOutcome} (h : .endOfFile ∉ reads) {k : Nat}
    (hk : k ≤ contents.length) :
    readLoop contents reads (contents.take k) (contents.length - k) = none ∨
      readLoop contents reads (contents.take k) (contents.length - k) = some (contents, 0) := by
  induction reads generalizing k with
  | nil =>
      obtain ⟨hall, hlen⟩ := read_part (Nat.le_of_eq (Nat.add_sub_cancel' hk))
      right
      rw [readLoop, hall, hlen, Nat.sub_self, Nat.add_sub_cancel' hk, List.take_length]
  | cons outcome reads ih =>
      have hreads : .endOfFile ∉ reads := fun hmem => h (List.mem_cons_of_mem outcome hmem)
      unfold readLoop
      dsimp only
      split
      · next hend =>
        right
        rw [hend, List.take_of_length_le (Nat.sub_eq_zero_iff_le.mp hend)]
      · next hmore =>
        cases outcome with
        | again => exact ih hreads hk
        | failed => exact .inl rfl
        | endOfFile => exact absurd List.mem_cons_self h
        | bytes n hn =>
            have hsome : 0 < min n (contents.length - k) := Nat.lt_min.mpr ⟨hn, Nat.pos_of_ne_zero hmore⟩
            have hk' : k + min n (contents.length - k) ≤ contents.length := by omega
            obtain ⟨hpart, hlen⟩ := read_part hk'
            dsimp only
            rw [hpart, hlen, if_neg (Nat.ne_of_gt hsome), Nat.sub_sub]
            exact ih hreads hk'

theorem storeNul_fits {contents : Bytes} (h : FitsInt contents.length) :
    ∃ buf, storeNul contents (int32 contents.length) = .ok buf ∧
      buf.take (int32 contents.length).toNat = contents.take (contents.length % 2 ^ 32) := by
  have hle : contents.length % 2 ^ 32 ≤ contents.length := Nat.mod_le _ _
  rw [int32_fits h, Int.toNat_natCast, storeNul, if_neg (Int.not_lt.mpr (Int.natCast_nonneg _)), Int.toNat_natCast]
  generalize contents.length % 2 ^ 32 = size at hle
  rcases Nat.lt_or_eq_of_le hle with hlt | heq
  · rw [if_pos hlt]
    exact ⟨_, rfl, List.take_set_of_le (Nat.le_refl _)⟩
  · rw [if_neg (by omega), if_pos heq]
    exact ⟨_, rfl, by rw [heq, List.take_left' rfl, List.take_length]⟩

/-- The file that a path names is regular, and the calls on it succeed. -/
structure Delivers (fs : FileSystem) (calls : ReadCalls) (path : Bytes) (contents : Bytes) : Prop where
  regular : fs.stat path = some (.regular contents)
  opens : calls.opens = true
  allocates : calls.allocates = true
  reads : (readLoop contents calls.reads [] contents.length).isSome = true

/-- What has been read and what is left make up the file. -/
theorem readLoop_length {contents : Bytes} {reads : List ReadOutcome} {buf buf' : Bytes} {left left' : Nat}
    (h : readLoop contents reads buf left = some (buf', left')) (hlen : buf.length + left = contents.length) :
    buf'.length + left' = contents.length := by
  induction reads generalizing buf left with
  | nil =>
      obtain ⟨rfl, rfl⟩ := Prod.mk.inj (Option.some.inj h)
      rw [List.length_append, List.length_take, List.length_drop]
      omega
  | cons outcome reads ih =>
      unfold readLoop at h
      split at h
      · obtain ⟨rfl, rfl⟩ := Prod.mk.inj (Option.some.inj h)
        exact hlen
      · cases outcome with
        | again => exact ih h hlen
        | failed => cases h
        | endOfFile =>
            obtain ⟨rfl, rfl⟩ := Prod.mk.inj (Option.some.inj h)
            exact hlen
        | bytes n hn =>
            dsimp only at h
            split at h
            · obtain ⟨rfl, rfl⟩ := Prod.mk.inj (Option.some.inj h)
              exact hlen
            · refine ih h ?_
              rw [List.length_append, List.length_take, List.length_drop]
              omega

theorem readFileToString_reads {fs : FileSystem} {calls : ReadCalls} {path contents buf : Bytes} {left : Nat}
    (h : Delivers fs calls path contents)
    (hread : readLoop contents calls.reads [] contents.length = some (buf, left)) :
    readFileToString fs calls path = (do
      let nul ← storeNul buf (int32 buf.length)
      return ⟨some (nul, int32 buf.length), 0⟩) := by
  have hlen := readLoop_length hread (Nat.zero_add _)
  have hsize : (contents.length : Int) - left = buf.length := by omega
  rw [readFileToString, h.regular]
  simp only [h.opens, h.allocates, hread, hsize]
  rfl

/-- A file that does not change is read whole. -/
theorem Delivers.whole {fs : FileSystem} {calls : ReadCalls} {path contents : Bytes}
    (h : Delivers fs calls path contents) (hcalls : calls.Unchanging) :
    readLoop contents calls.reads [] contents.length = some (contents, 0) := by
  have hsome := h.reads
  rcases readLoop_unchanging hcalls (Nat.zero_le contents.length) with hnone | hall
  · rw [List.take_zero, Nat.sub_zero] at hnone
    rw [hnone] at hsome
    cases hsome
  · rwa [List.take_zero, Nat.sub_zero] at hall

theorem readFileToString_null {fs : FileSystem} {calls : ReadCalls} {path : Bytes}
    (h : ¬∃ contents, Delivers fs calls path contents) :
    ∃ fds, readFileToString fs calls path = .ok ⟨none, fds⟩ := by
  unfold readFileToString
  split
  · next contents hregular =>
    split
    · exact ⟨0, rfl⟩
    · next hopens =>
      split
      · exact ⟨1, rfl⟩
      · next hallocates =>
        split
        · exact ⟨1, rfl⟩
        · next buf leftToRead hread =>
          refine absurd ⟨contents, hregular, ?_, ?_, ?_⟩ h
          · simpa using hopens
          · simpa using hallocates
          · rw [hread]
            rfl
  · exact ⟨0, rfl⟩

end FileParser

namespace FileReader

open FileParser

variable {fs : FileSystem} {calls : ReadCalls} {r : FileReader}

theorem readFile_reads (hsafe : ContainsPath fs r.basedir r.fullName) {contents buf : Bytes} {left : Nat}
    (h : Delivers fs calls (cStr r.fullName) contents)
    (hread : readLoop contents calls.reads [] contents.length = some (buf, left)) :
    readFile fs calls r =
      if FitsInt buf.length then .ok (some (buf.take (buf.length % 2 ^ 32))) else .error .badAccess := by
  obtain ⟨safe, hrun, hspec⟩ := isPathSafe_spec fs r.basedir r.fullName
  obtain rfl : safe = true := hspec.mpr (.inl hsafe)
  rw [readFile, hrun, Run.ok_bind, readFileToString_reads h hread]
  by_cases hfits : FitsInt buf.length
  · obtain ⟨nul, hstore, htake⟩ := storeNul_fits hfits
    simp [hstore, htake, hfits]
  · have hstore : storeNul buf (int32 buf.length) = .error .badAccess := if_pos (int32_neg hfits)
    simp [hstore, hfits]

theorem readFile_delivers (hcalls : calls.Unchanging) (hsafe : ContainsPath fs r.basedir r.fullName) {contents : Bytes}
    (h : Delivers fs calls (cStr r.fullName) contents) :
    readFile fs calls r =
      if FitsInt contents.length then .ok (some (contents.take (contents.length % 2 ^ 32)))
      else .error .badAccess :=
  readFile_reads hsafe h (h.whole hcalls)

theorem readFile_none
    (h : ¬∃ contents, ContainsPath fs r.basedir r.fullName ∧ Delivers fs calls (cStr r.fullName) contents) :
    readFile fs calls r = .ok none := by
  obtain ⟨safe, hrun, hspec⟩ := isPathSafe_spec fs r.basedir r.fullName
  rw [readFile, hrun, Run.ok_bind]
  cases safe with
  | false => rfl
  | true =>
      have hnull : ¬∃ contents, Delivers fs calls (cStr r.fullName) contents := by
        rintro ⟨contents, hdelivers⟩
        rcases hspec.mp rfl with hcontains | ⟨root, test, _, htest, _, hempty⟩
        · exact h ⟨contents, hcontains, hdelivers⟩
        · have hdir := hdelivers.regular
          rw [FileSystem.stat, htest, Option.map_some, fs.rootDirectory hempty] at hdir
          cases hdir
      obtain ⟨fds, hread⟩ := readFileToString_null hnull
      rw [hread]
      rfl

end FileReader

namespace HttpServer

open FileParser

/-- The file name in a request, unless its path is empty. -/
def requestedName (uri : Bytes) : Run (Option Bytes) := do
  let parser ← URLParser.init.parse uri
  if parser.path.isEmpty then return none
  let fileName ← fileNameOf parser.path
  return some fileName

/-- The regular file below the base directory that a request names, and the
calls on it succeed. -/
structure Names (fs : FileSystem) (calls : ReadCalls) (uri baseDir : Bytes) (root p : AbsPath) (contents : Bytes) :
    Prop where
  name : ∃ fileName, requestedName uri = .ok (some fileName) ∧
    fs.realpath (cStr (staticReader baseDir fileName).fullName) = some p
  base : fs.realpath (cStr baseDir) = some root
  below : root.Below p
  regular : fs.node p = .regular contents
  opens : calls.opens = true
  allocates : calls.allocates = true
  reads : (readLoop contents calls.reads [] contents.length).isSome = true

section

variable {fs : FileSystem} {calls : ReadCalls} {uri baseDir : Bytes}

theorem names_iff {root p : AbsPath} {contents fileName : Bytes} (hname : requestedName uri = .ok (some fileName))
    (hbase : fs.realpath (cStr baseDir) = some root)
    (hp : fs.realpath (cStr (staticReader baseDir fileName).fullName) = some p) :
    Names fs calls uri baseDir root p contents ↔
      ContainsPath fs baseDir (staticReader baseDir fileName).fullName ∧
        Delivers fs calls (cStr (staticReader baseDir fileName).fullName) contents := by
  constructor
  · intro h
    exact ⟨⟨root, p, hbase, hp, h.below⟩, by rw [FileSystem.stat, hp, Option.map_some, h.regular], h.opens,
      h.allocates, h.reads⟩
  · rintro ⟨⟨root', p', hbase', hp', hbelow⟩, h⟩
    obtain rfl := Option.some.inj (hbase.symm.trans hbase')
    obtain rfl := Option.some.inj (hp.symm.trans hp')
    have hnode := h.regular
    rw [FileSystem.stat, hp] at hnode
    exact ⟨⟨fileName, hname, hp⟩, hbase, hbelow, Option.some.inj hnode, h.opens, h.allocates, h.reads⟩

theorem startsWithStatic_eq (s : Bytes) : startsWithStatic s = .ok (decide (s.take 8 = staticPrefix)) := by
  simp [startsWithStatic, substr]

theorem fileNameOf_ok (path : Bytes) : ∃ fileName, fileNameOf path = .ok fileName := by
  rw [fileNameOf, startsWithStatic_eq, Run.ok_bind]
  split
  · next h =>
    have hlen := congrArg List.length (of_decide_eq_true h)
    rw [List.length_take] at hlen
    have hstart : staticPrefix.length = 8 := rfl
    exact ⟨_, if_pos (by omega)⟩
  · exact ⟨path, rfl⟩

theorem extensionOf_ok (fileName : Bytes) : ∃ extension, extensionOf fileName = .ok extension := by
  unfold extensionOf
  cases h : rfind fileName 46 with
  | none => exact ⟨[], rfl⟩
  | some pos =>
      obtain ⟨i, _, hpos⟩ := Option.map_eq_some_iff.mp h
      exact ⟨_, if_pos (by omega)⟩

/-- A file request ends as the reading of the file does. -/
theorem processFileRequest_eq {fileName : Bytes} (hname : requestedName uri = .ok (some fileName)) :
    ∃ extension escaped, processFileRequest fs calls uri baseDir = (do
      match ← (staticReader baseDir fileName).readFile fs calls with
      | some str => return ⟨protocol, 200, ascii "OK".toList, contentTypeOf extension, str⟩
      | none => return { emptyResponse with
          protocol := protocol
          responseCode := 404
          message := ascii "Not Found".toList
          body := ascii "<html><body>Couldn't find file \"".toList ++ escaped ++
            ascii "\"</body></html>\n".toList }) := by
  obtain ⟨extension, hextension⟩ := extensionOf_ok fileName
  refine ⟨extension, fileName.flatMap escapeChar, ?_⟩
  rw [requestedName] at hname
  obtain ⟨parser, hparser, hrest⟩ := Run.bind_eq_ok.mp hname
  rw [processFileRequest, hparser, Run.ok_bind]
  split at hrest
  · cases hrest
  · next hpath =>
    obtain ⟨found, hfound, hend⟩ := Run.bind_eq_ok.mp hrest
    obtain rfl : found = fileName := Option.some.inj (Except.ok.inj hend)
    simp only [hpath, hfound, hextension, escapeHtml_eq, Run.ok_bind]
    rfl

/-- An empty path is answered with 400. -/
theorem processFileRequest_empty (hname : requestedName uri = .ok none) :
    processFileRequest fs calls uri baseDir =
      .ok { emptyResponse with responseCode := 400, message := ascii "Bad Request".toList } := by
  rw [requestedName] at hname
  obtain ⟨parser, hparser, hrest⟩ := Run.bind_eq_ok.mp hname
  rw [processFileRequest, hparser, Run.ok_bind]
  split at hrest
  · next hpath => rw [if_pos hpath]; rfl
  · obtain ⟨found, _, hend⟩ := Run.bind_eq_ok.mp hrest
    cases Except.ok.inj hend

theorem requestedName_ok {res : HttpResponse} (h : processFileRequest fs calls uri baseDir = .ok res) :
    ∃ name, requestedName uri = .ok name := by
  rw [processFileRequest] at h
  obtain ⟨parser, hparser, _⟩ := Run.bind_eq_ok.mp h
  obtain ⟨fileName, hfileName⟩ := fileNameOf_ok parser.path
  rw [requestedName, hparser, Run.ok_bind, hfileName]
  split
  · exact ⟨_, rfl⟩
  · exact ⟨_, rfl⟩

/-- A request that names a file below the base directory. -/
theorem processFileRequest_names (hcalls : calls.Unchanging) {root p : AbsPath} {contents : Bytes}
    (h : Names fs calls uri baseDir root p contents) :
    if FitsInt contents.length then
      ∃ res, processFileRequest fs calls uri baseDir = .ok res ∧ res.responseCode = 200 ∧
        res.body = contents.take (contents.length % 2 ^ 32)
    else processFileRequest fs calls uri baseDir = .error .badAccess := by
  obtain ⟨fileName, hname, hp⟩ := h.name
  obtain ⟨hcontains, hdelivers⟩ := (names_iff hname h.base hp).mp h
  obtain ⟨extension, escaped, heq⟩ := processFileRequest_eq hname
  have hread : (staticReader baseDir fileName).readFile fs calls = _ :=
    FileReader.readFile_delivers (r := staticReader baseDir fileName) hcalls hcontains hdelivers
  rw [heq, hread]
  split
  · next hfits => exact ⟨_, rfl, rfl, rfl⟩
  · rfl

/-- Only such a request is answered with 200. -/
theorem processFileRequest_200 (hcalls : calls.Unchanging) {res : HttpResponse}
    (h : processFileRequest fs calls uri baseDir = .ok res) (hcode : res.responseCode = 200) :
    ∃ root p contents, Names fs calls uri baseDir root p contents ∧ FitsInt contents.length ∧
      res.body = contents.take (contents.length % 2 ^ 32) := by
  obtain ⟨name, hname⟩ := requestedName_ok h
  cases name with
  | none =>
      rw [processFileRequest_empty hname] at h
      obtain rfl := Except.ok.inj h
      cases hcode
  | some fileName =>
      by_cases hread : ∃ contents, ContainsPath fs baseDir (staticReader baseDir fileName).fullName ∧
          Delivers fs calls (cStr (staticReader baseDir fileName).fullName) contents
      · obtain ⟨contents, hcontains, hdelivers⟩ := hread
        obtain ⟨root, p, hbase, hp, hbelow⟩ := hcontains
        have hnames := (names_iff hname hbase hp).mpr ⟨⟨root, p, hbase, hp, hbelow⟩, hdelivers⟩
        have hspec := processFileRequest_names hcalls hnames
        split at hspec
        · next hfits =>
          obtain ⟨res', hrun, _, hbody⟩ := hspec
          obtain rfl := Except.ok.inj (hrun.symm.trans h)
          exact ⟨root, p, contents, hnames, hfits, hbody⟩
        · rw [hspec] at h
          cases h
      · obtain ⟨extension, escaped, heq⟩ := processFileRequest_eq hname
        have hnone := FileReader.readFile_none (r := staticReader baseDir fileName) hread
        rw [heq, hnone] at h
        obtain rfl := Except.ok.inj h
        cases hcode

end

/-- The contents of a regular file strictly below the base directory. -/
def HoldsBelow (fs : FileSystem) (baseDir body : Bytes) : Prop :=
  ∃ root p, fs.realpath (cStr baseDir) = some root ∧ fs.realpath p.toBytes = some p ∧ root.Below p ∧
    fs.node p = .regular body

/-- IsPathSafe is right about all paths but the root's own, and an answer with
200 is a file below the base directory unless its length has been cut. -/
theorem static_confined_iff (fs : FileSystem) (calls : ReadCalls) (hcalls : calls.Unchanging)
    (rootDir testFile uri baseDir : Bytes) :
    ((isPathSafe fs rootDir testFile = .ok true ↔ ContainsPath fs rootDir testFile) ↔
        ¬BothRoot fs rootDir testFile) ∧
    ((∀ res, processFileRequest fs calls uri baseDir = .ok res → res.responseCode = 200 →
          HoldsBelow fs baseDir res.body) ↔
        ∀ root p contents, Names fs calls uri baseDir root p contents → contents.length < 2 ^ 32 ∨
          2 ^ 31 ≤ contents.length % 2 ^ 32 ∨
            HoldsBelow fs baseDir (contents.take (contents.length % 2 ^ 32))) := by
  refine ⟨isPathSafe_contains_iff fs rootDir testFile, ?_, ?_⟩
  · intro hall root p contents hnames
    have hspec := processFileRequest_names hcalls hnames
    split at hspec
    · next hfits =>
      obtain ⟨res, hrun, hcode, hbody⟩ := hspec
      have hholds := hall res hrun hcode
      rw [hbody] at hholds
      exact .inr (.inr hholds)
    · next hfits => exact .inr (.inl (Nat.le_of_not_lt hfits))
  · intro hall res hrun hcode
    obtain ⟨root, p, contents, hnames, hfits, hbody⟩ := processFileRequest_200 hcalls hrun hcode
    rw [hbody]
    rcases hall root p contents hnames with hshort | hneg | hholds
    · obtain ⟨fileName, _, hp⟩ := hnames.name
      rw [Nat.mod_eq_of_lt hshort, List.take_length]
      exact ⟨root, p, hnames.base, fs.canonical hp, hnames.below, hnames.regular⟩
    · exact absurd hfits (Nat.not_lt.mpr hneg)
    · exact hholds

namespace OneFile

def rootPath : AbsPath := ⟨[], by simp⟩

def srv : AbsPath := ⟨[ascii ['s', 'r', 'v']], by decide⟩

def file : AbsPath := ⟨[ascii ['s', 'r', 'v'], ascii ['a']], by decide⟩

def resolve (path : Bytes) : Option AbsPath :=
  if path = ascii ['/'] then some rootPath
  else if path = ascii ['.'] ∨ path = srv.toBytes then some srv
  else if path = ascii ['.', '/', '.', '/', 'a'] ∨ path = file.toBytes then some file
  else none

theorem resolve_cases {path : Bytes} {p : AbsPath} (h : resolve path = some p) :
    p = rootPath ∨ p = srv ∨ p = file := by
  unfold resolve at h
  split_ifs at h <;> simp_all

/-- A file system with one file, /srv/a, and a process that works in /srv. -/
def fileSystem (contents : Bytes) : FileSystem where
  realpath := resolve
  node p := if p.components = file.components then .regular contents else .directory
  canonical := by
    intro path p h
    rcases resolve_cases h with rfl | rfl | rfl <;> rfl
  rootDirectory := by
    intro p h
    rw [h]
    rfl

def calls : ReadCalls := ⟨true, true, []⟩

def uri : Bytes := ascii "/static/a".toList

def baseDir : Bytes := ascii ['.']

variable {contents : Bytes}

theorem node_eq {p : AbsPath} {found : Bytes} (h : (fileSystem contents).node p = .regular found) :
    found = contents := by
  change (if p.components = file.components then Node.regular contents else .directory) = .regular found at h
  split at h
  · exact (Node.regular.inj h).symm
  · cases h

theorem below_srv : srv.Below file := ⟨⟨[ascii ['a']], rfl⟩, by decide⟩

theorem names : Names (fileSystem contents) calls uri baseDir srv file contents where
  name := ⟨ascii ['a'], by decide +kernel, rfl⟩
  base := rfl
  below := below_srv
  regular := rfl
  opens := rfl
  allocates := rfl
  reads := by
    rw [calls, readLoop]
    rfl

end OneFile

theorem static_confined_small :
    isPathSafe (OneFile.fileSystem (ascii ['h', 'i'])) OneFile.baseDir (ascii ['.', '/', '.', '/', 'a']) = .ok true ∧
      ∀ res, processFileRequest (OneFile.fileSystem (ascii ['h', 'i'])) OneFile.calls OneFile.uri OneFile.baseDir =
        .ok res → res.responseCode = 200 →
          HoldsBelow (OneFile.fileSystem (ascii ['h', 'i'])) OneFile.baseDir res.body := by
  have hcontains : ContainsPath (OneFile.fileSystem (ascii ['h', 'i'])) OneFile.baseDir
      (ascii ['.', '/', '.', '/', 'a']) := ⟨OneFile.srv, OneFile.file, rfl, rfl, OneFile.below_srv⟩
  obtain ⟨hsafe, hbody⟩ := static_confined_iff (OneFile.fileSystem (ascii ['h', 'i'])) OneFile.calls
    (by simp [ReadCalls.Unchanging, OneFile.calls]) OneFile.baseDir (ascii ['.', '/', '.', '/', 'a']) OneFile.uri
    OneFile.baseDir
  constructor
  · apply (hsafe.mpr fun hboth => not_contains_of_bothRoot hboth hcontains).mpr
    exact hcontains
  · apply hbody.mpr
    intro root p contents hnames
    obtain rfl := OneFile.node_eq hnames.regular
    exact .inl (by decide)

/-- The root is taken to be below itself, and of a file of 2^32 + 1 bytes one
byte is sent. -/
theorem static_not_confined :
    (isPathSafe (OneFile.fileSystem []) (ascii ['/']) (ascii ['/']) = .ok true ∧
      ¬ContainsPath (OneFile.fileSystem []) (ascii ['/']) (ascii ['/'])) ∧
    ∃ res, processFileRequest (OneFile.fileSystem (List.replicate (2 ^ 32 + 1) 0)) OneFile.calls OneFile.uri
        OneFile.baseDir = .ok res ∧ res.responseCode = 200 ∧
      ¬HoldsBelow (OneFile.fileSystem (List.replicate (2 ^ 32 + 1) 0)) OneFile.baseDir res.body := by
  have hboth : BothRoot (OneFile.fileSystem []) (ascii ['/']) (ascii ['/']) :=
    ⟨OneFile.rootPath, OneFile.rootPath, rfl, rfl, rfl, rfl⟩
  obtain ⟨safe, hrun, hspec⟩ := isPathSafe_spec (OneFile.fileSystem []) (ascii ['/']) (ascii ['/'])
  obtain rfl : safe = true := hspec.mpr (.inr hboth)
  refine ⟨⟨hrun, not_contains_of_bothRoot hboth⟩, ?_⟩
  generalize hlong : List.replicate (2 ^ 32 + 1) (0 : UInt8) = long
  have hlen : long.length = 2 ^ 32 + 1 := by rw [← hlong, List.length_replicate]
  have hanswer := processFileRequest_names (by simp [ReadCalls.Unchanging, OneFile.calls])
    (@OneFile.names long)
  have hfits : FitsInt long.length := by
    rw [hlen]
    decide
  rw [if_pos hfits] at hanswer
  obtain ⟨res, hres, hcode, hbody⟩ := hanswer
  refine ⟨res, hres, hcode, ?_⟩
  rintro ⟨_, p, _, _, _, hnode⟩
  have hsame := congrArg List.length (OneFile.node_eq hnode)
  rw [hbody, List.length_take, hlen] at hsame
  revert hsame
  decide

end HttpServer

end SearchEngine
