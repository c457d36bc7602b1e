import SearchEngine.StaticLinks

/-! Which files below the base directory are served. -/

namespace SearchEngine

open FileParser HttpUtils StdString

/-- The calls on a regular file succeed, perhaps after interruptions and short
reads. -/
structure ReadCalls.Readable (calls : ReadCalls) : Prop where
  opens : calls.opens = true
  allocates : calls.allocates = true
  noEnd : .endOfFile ∉ calls.reads
  noFailure : .failed ∉ calls.reads

theorem FileParser.readLoop_isSome {contents : Bytes} {reads : List ReadOutcome} (h : .failed ∉ reads) (buf : Bytes)
    (left : Nat) : (readLoop contents reads buf left).isSome = true := by
  induction reads generalizing buf left with
  | nil => rfl
  | cons outcome reads ih =>
      have hreads : .failed ∉ reads := fun hmem => h (List.mem_cons_of_mem outcome hmem)
      unfold readLoop
      split
      · rfl
      · cases outcome with
        | again => exact ih hreads buf left
        | failed => exact absurd List.mem_cons_self h
        | endOfFile => rfl
        | bytes n hn =>
            dsimp only
            split
            · rfl
            · exact ih hreads _ _

namespace HttpServer

/-- A path relative to a directory. -/
def relativePath (components : List Bytes) : Bytes := [47].intercalate components

/-- A regular file at a path below the base directory, without symbolic links
on the way. -/
structure FileBelow (fs : FileSystem) (baseDir : Bytes) (root : AbsPath) (components : List Bytes) (contents : Bytes) :
    Prop where
  base : fs.realpath (cStr baseDir) = some root
  nonempty : components ≠ []
  file : ∃ p, fs.realpath (cStr (baseDir ++ 47 :: relativePath components)) = some p ∧
    p.components = root.components ++ components ∧ fs.node p = .regular contents

/-- A percent-encoding in which the characters that a URI gives a meaning to do
not stand for themselves. -/
structure StaticEncoding (path e : Bytes) : Prop where
  encodes : Encodes path e
  noPlus : 43 ∉ e
  noQuery : 63 ∉ e
  noSpace : 32 ∉ e

/-- The base directory followed by itself and then by the path leads to a
regular file below the base directory, of which the low 32 bits of the length
are a length as an int, and so many of its bytes are these. -/
def DoubledPath (fs : FileSystem) (baseDir : Bytes) (root : AbsPath) (path contents : Bytes) : Prop :=
  ∃ p stored, fs.realpath (cStr (baseDir ++ 47 :: (baseDir ++ 47 :: path))) = some p ∧ root.Below p ∧
    fs.node p = .regular stored ∧ FitsInt stored.length ∧ stored.take (stored.length % 2 ^ 32) = contents

/-- So it is when the doubled path leads to the same place. -/
theorem FileBelow.doubled {fs : FileSystem} {baseDir : Bytes} {root : AbsPath} {components : List Bytes}
    {contents : Bytes} (h : FileBelow fs baseDir root components contents) (hlen : contents.length < 2 ^ 31)
    (hsame : fs.realpath (cStr (baseDir ++ 47 :: (baseDir ++ 47 :: relativePath components))) =
      fs.realpath (cStr (baseDir ++ 47 :: relativePath components))) :
    DoubledPath fs baseDir root (relativePath components) contents := by
  obtain ⟨p, hp, hcomponents, hnode⟩ := h.file
  have hmod : contents.length % 2 ^ 32 = contents.length := Nat.mod_eq_of_lt (by omega)
  refine ⟨p, contents, hsame.trans hp, ⟨?_, ?_⟩, hnode, ?_, ?_⟩
  · rw [hcomponents]
    exact List.prefix_append _ _
  · intro heq
    rw [hcomponents] at heq
    exact h.nonempty (List.self_eq_append_right.mp heq)
  · rw [FitsInt, hmod]
    exact hlen
  · rw [hmod, List.take_length]

theorem requestedName_encoded {path e : Bytes} (h : StaticEncoding path e) {name : Option Bytes} :
    requestedName (staticPrefix ++ e) = .ok name ↔ e.length + 8 < 2 ^ 32 ∧ name = some path := by
  rw [requestedName_path h.noQuery, decoded_encodes h.encodes]

theorem processRequest_static (server : Resources) (e : Bytes) (headers : AList fun _ : Bytes => Bytes) :
    processRequest server ⟨staticPrefix ++ e, headers⟩ =
      processFileRequest server.fs server.calls (staticPrefix ++ e) server.baseDir := by
  have hstart : (staticPrefix ++ e).take 8 = staticPrefix := List.take_left' rfl
  rw [processRequest, startsWithStatic_eq, hstart, Run.ok_bind, decide_eq_true rfl, if_pos rfl]

/-- A file is served when the base directory, which is put in front of its path
twice, leads to the same bytes. -/
theorem static_served_iff (server : Resources) (headers : AList fun _ : Bytes => Bytes) {root : AbsPath}
    {components : List Bytes} {contents e : Bytes}
    (hfile : FileBelow server.fs server.baseDir root components contents) (hcalls : server.calls.Readable)
    (he : StaticEncoding (relativePath components) e) :
    (∃ res, processRequest server ⟨staticPrefix ++ e, headers⟩ = .ok res ∧ res.responseCode = 200 ∧
      res.body = contents) ↔
        e.length + 8 < 2 ^ 32 ∧ DoubledPath server.fs server.baseDir root (relativePath components) contents := by
  rw [processRequest_static]
  constructor
  · rintro ⟨res, hrun, hcode, hbody⟩
    obtain ⟨root', p, stored, hnames, hfits, hstored⟩ := processFileRequest_200 hcalls.noEnd hrun hcode
    obtain ⟨fileName, hname, hp⟩ := hnames.name
    obtain ⟨hlen, hsame⟩ := (requestedName_encoded he).mp hname
    obtain rfl := Option.some.inj hsame
    obtain rfl := Option.some.inj (hfile.base.symm.trans hnames.base)
    exact ⟨hlen, p, stored, hp, hnames.below, hnames.regular, hfits, hstored.symm.trans hbody⟩
  · rintro ⟨hlen, p, stored, hp, hbelow, hnode, hfits, hstored⟩
    have hname := (@requestedName_encoded _ _ he (some _)).mpr ⟨hlen, rfl⟩
    have hnames : Names server.fs server.calls (staticPrefix ++ e) server.baseDir root p stored :=
      ⟨⟨_, hname, hp⟩, hfile.base, hbelow, hnode, hcalls.opens, hcalls.allocates, readLoop_isSome hcalls.noFailure [] _⟩
    have hanswer := processFileRequest_names hcalls.noEnd hnames
    rw [if_pos hfits] at hanswer
    obtain ⟨res, hrun, hcode, hbody⟩ := hanswer
    exact ⟨res, hrun, hcode, hbody.trans hstored⟩

namespace OneFile

/-- The file has a shorter path from /srv. -/
def resolveShort (path : Bytes) : Option AbsPath := if path = ascii ['.', '/', 'a'] then some file else resolve path

def shortFileSystem (contents : Bytes) : FileSystem where
  realpath := resolveShort
  node := (fileSystem contents).node
  canonical := by
    intro path p h
    have hp : p = rootPath ∨ p = srv ∨ p = file := by
      unfold resolveShort at h
      split at h
      · exact .inr (.inr (Option.some.inj h).symm)
      · exact resolve_cases h
    rcases hp with rfl | rfl | rfl <;> rfl
  rootDirectory := (fileSystem contents).rootDirectory

theorem readable : calls.Readable := ⟨rfl, rfl, by simp [calls], by simp [calls]⟩

theorem fileBelow {baseDir : Bytes} (contents : Bytes) (hbase : baseDir = ascii ['.'] ∨ baseDir = srv.toBytes) :
    FileBelow (shortFileSystem contents) baseDir srv [ascii ['a']] contents where
  base := by rcases hbase with rfl | rfl <;> rfl
  nonempty := by simp
  file := by rcases hbase with rfl | rfl <;> exact ⟨file, rfl, rfl, rfl⟩

theorem encoded_a : StaticEncoding (relativePath [ascii ['a']]) (ascii ['%', '6', '1']) where
  encodes := .cons (by decide) (by decide) (.code ⟨6, 1, by decide, by decide, rfl⟩) .nil
  noPlus := by decide
  noQuery := by decide
  noSpace := by decide

end OneFile

theorem static_served_dot : ∃ res,
    processRequest ⟨mergeSorter _, [], ascii ['.'], OneFile.shortFileSystem (ascii ['h', 'i']), OneFile.calls⟩
      ⟨staticPrefix ++ ascii ['%', '6', '1'], ∅⟩ = .ok res ∧ res.responseCode = 200 ∧ res.body = ascii ['h', 'i'] :=
  (static_served_iff ⟨mergeSorter _, [], ascii ['.'], OneFile.shortFileSystem (ascii ['h', 'i']), OneFile.calls⟩ ∅
    (OneFile.fileBelow _ (.inl rfl)) OneFile.readable OneFile.encoded_a).mpr
    ⟨by decide, (OneFile.fileBelow _ (.inl rfl)).doubled (by decide) rfl⟩

/-- With the base directory /srv the file is looked for at /srv//srv/a. -/
theorem static_not_served :
    FileBelow (OneFile.shortFileSystem (ascii ['h', 'i'])) (ascii "/srv".toList) OneFile.srv [ascii ['a']]
      (ascii ['h', 'i']) ∧
    OneFile.calls.Readable ∧ StaticEncoding (relativePath [ascii ['a']]) (ascii ['a']) ∧
    ∀ res, processRequest ⟨mergeSorter _, [], ascii "/srv".toList, OneFile.shortFileSystem (ascii ['h', 'i']),
      OneFile.calls⟩ ⟨staticPrefix ++ ascii ['a'], ∅⟩ = .ok res → res.responseCode ≠ 200 := by
  have hself : StaticEncoding (relativePath [ascii ['a']]) (ascii ['a']) :=
    ⟨.cons (by decide) (by decide) (.itself (by decide) (by decide)) .nil, by decide, by decide, by decide⟩
  refine ⟨OneFile.fileBelow _ (.inr rfl), OneFile.readable, hself, ?_⟩
  intro res hres hcode
  rw [processRequest_static] at hres
  obtain ⟨root, p, stored, hnames, _⟩ := processFileRequest_200 OneFile.readable.noEnd hres hcode
  obtain ⟨fileName, hname, hp⟩ := hnames.name
  obtain rfl := Option.some.inj ((requestedName_encoded hself).mp hname).2
  cases hp

end HttpServer

end SearchEngine
