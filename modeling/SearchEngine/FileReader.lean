import SearchEngine.FileTree
import SearchEngine.HttpUtils
import SearchEngine.Library.Framing
import SearchEngine.Library.Separated
import SearchEngine.LayoutStructs

namespace SearchEngine

open Separated StdString

/-- A path that realpath resolves another one to. -/
structure AbsPath where
  components : List Bytes
  proper : ∀ c ∈ components, Dir.ProperName c ∧ 0 ∉ c
  deriving DecidableEq

namespace AbsPath

def toBytes (p : AbsPath) : Bytes := if p.components = [] then [47] else joined 47 p.components

/-- Strictly below: the components of the one begin those of the other. -/
def Below (root p : AbsPath) : Prop := root.components <+: p.components ∧ root.components ≠ p.components

end AbsPath

inductive Node
  | directory
  | regular (contents : Bytes)
  | other

/-- A file system that does not change. A path that has been resolved is
resolved to itself, and the root is a directory. -/
structure FileSystem where
  realpath : Bytes → Option AbsPath
  node : AbsPath → Node
  canonical : ∀ {path : Bytes} {p : AbsPath}, realpath path = some p → realpath p.toBytes = some p
  rootDirectory : ∀ {p : AbsPath}, p.components = [] → node p = .directory

namespace FileSystem

def access (fs : FileSystem) (path : Bytes) : Bool := (fs.realpath path).isSome

/-- What stat finds. -/
def stat (fs : FileSystem) (path : Bytes) : Option Node := (fs.realpath path).map fs.node

end FileSystem

namespace HttpUtils

def isPathSafe (fs : FileSystem) (rootDir testFile : Bytes) : Run Bool :=
  match fs.realpath (cStr rootDir), fs.realpath (cStr testFile) with
  | some root, some test => do
      let rootPath := root.toBytes
      let testPath := test.toBytes
      let last ← charAt rootPath (rootPath.length - 1)
      let rootPath := if last ≠ 47 then rootPath ++ [47] else rootPath
      if Framing.find rootPath testPath ≠ some 0 then return false
      if !fs.access testPath then return false
      return true
  | _, _ => return false

end HttpUtils

/-- The outcomes of a read: some bytes, as long as there are so many, EAGAIN or
EINTR, the end of a file that has become shorter, or another error. -/
inductive ReadOutcome
  | bytes (n : Nat) (pos : 0 < n)
  | again
  | endOfFile
  | failed
  deriving DecidableEq

/-- The outcomes of the calls of ReadFileToString after stat. After the last of
the reads one gets all that is left. -/
structure ReadCalls where
  opens : Bool
  allocates : Bool
  reads : List ReadOutcome

/-- The file stays as it was at the call of stat. -/
def ReadCalls.Unchanging (calls : ReadCalls) : Prop := .endOfFile ∉ calls.reads

/-- What ReadFileToString returns, with the size that it reports, and how many
of the descriptors that it opened it leaves open. -/
structure FileString where
  buf : Option (Bytes × Int)
  openFds : Nat

namespace FileParser

/-- The bytes read and how many are left to read, unless a read fails. -/
def readLoop (contents : Bytes) : List ReadOutcome → Bytes → Nat → Option (Bytes × Nat)
  | [], buf, leftToRead =>
      let got := (contents.drop buf.length).take leftToRead
      some (buf ++ got, leftToRead - got.length)
  | outcome :: reads, buf, leftToRead =>
      if leftToRead = 0 then some (buf, leftToRead)
      else
        match outcome with
        | .again => readLoop contents reads buf leftToRead
        | .failed => none
        | .endOfFile => some (buf, leftToRead)
        | .bytes n _ =>
            let got := (contents.drop buf.length).take (min n leftToRead)
            if got.length = 0 then some (buf, leftToRead)
            else readLoop contents reads (buf ++ got) (leftToRead - got.length)

/-- buf[*size] = 0, in a buffer that holds these bytes and has room for one
more. -/
def storeNul (buf : Bytes) (size : Int) : Run Bytes :=
  if size < 0 then .error .badAccess
  else if size.toNat < buf.length then .ok (buf.set size.toNat 0)
  else if size.toNat = buf.length then .ok (buf ++ [0])
  else .error .badAccess

def readFileToString (fs : FileSystem) (calls : ReadCalls) (fileName : Bytes) : Run FileString :=
  match fs.stat fileName with
  | some (.regular contents) =>
      if !calls.opens then return ⟨none, 0⟩
      else if !calls.allocates then return ⟨none, 1⟩
      else
        match readLoop contents calls.reads [] contents.length with
        | none => return ⟨none, 1⟩
        | some (buf, leftToRead) => do
            let size := int32 (contents.length - leftToRead)
            let buf ← storeNul buf size
            return ⟨some (buf, size), 0⟩
  | _ => return ⟨none, 0⟩

end FileParser

structure FileReader where
  basedir : Bytes
  fname : Bytes

namespace FileReader

def fullName (r : FileReader) : Bytes := r.basedir ++ 47 :: r.fname

def readFile (fs : FileSystem) (calls : ReadCalls) (r : FileReader) : Run (Option Bytes) := do
  if !(← HttpUtils.isPathSafe fs r.basedir r.fullName) then return none
  let ⟨buf, _⟩ ← FileParser.readFileToString fs calls (cStr r.fullName)
  match buf with
  | none => return none
  | some (fileContent, size) => return some (fileContent.take size.toNat)

end FileReader

end SearchEngine
