import SearchEngine.Crc32
import SearchEngine.HashTableReader

namespace SearchEngine

open FileProgram

structure FileIndexReader where
  header : IndexFileHeader

namespace FileIndexReader

def kBufSize : Int := 512

/-- The loop that checks the checksum, a buffer at a time. The first argument
bounds its rounds. -/
def readBuffers : Nat → Int → CRC32 → FileProgram CRC32
  | 0, _, _ => .fail .outOfFuel
  | rounds + 1, leftToRead, crc => do
      if 0 < leftToRead then
        let bytesToRead := min leftToRead kBufSize
        let buf ← freadVerified bytesToRead.toNat
        let crc ← ofRun (crc.foldBytes buf)
        readBuffers rounds (leftToRead - bytesToRead) crc
      else return crc

def new (validate : Bool) : FileProgram FileIndexReader := do
  FileProgram.verify333 (← succeeds .openRead)
  let header := IndexFileHeader.ofDisk (← freadVerified IndexFileHeader.sizeof)
  FileProgram.verify333 (header.magicNumber = kMagicNumber)
  let stSize ← fileSize
  FileProgram.verify333
    ((stSize : Int) = (IndexFileHeader.sizeof + header.doctableBytes + header.indexBytes) % 2 ^ 32)
  if validate then
    let leftToRead ← addInt header.doctableBytes header.indexBytes
    let crc ← readBuffers (leftToRead.toNat + 1) leftToRead .new
    FileProgram.verify333 (crc.getFinalCRC.1 = header.checksum)
  return ⟨header⟩

def newDocTableReader (_ : FileIndexReader) : FileProgram HashTableReader :=
  HashTableReader.new IndexFileHeader.sizeof

def newIndexTableReader (r : FileIndexReader) : FileProgram HashTableReader :=
  HashTableReader.new (int32 (IndexFileHeader.sizeof + r.header.doctableBytes))

def openTables (validate : Bool) : FileProgram (HashTableReader × HashTableReader) := do
  let fir ← new validate
  let dtr ← fir.newDocTableReader
  let itr ← fir.newIndexTableReader
  return (dtr, itr)

end FileIndexReader

end SearchEngine
