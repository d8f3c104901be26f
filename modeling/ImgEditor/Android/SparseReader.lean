import ImgEditor.Android.SparseFormat
import ImgEditor.Core.Dd

namespace ImgEditor

open Storage

def sparseDetect (fd : Fd) : Option SparseHeader :=
  let head := SparseHeader.decode (fd.read 28).1
  if head.magic ≠ SPARSE_HEADER_MAGIC then none
  else if head.majorVersion ≠ 1 ∨ head.minorVersion ≠ 0 then none
  else if head.fileHdrSz ≠ 28 then none
  else some head

/-- `read(fd, &chunk, sizeof(chunk))` at an absolute position; a short header is an error. -/
def readChunkHeader (fd : Fd) (offset : Nat) : Option ChunkHeader × Fd :=
  let (bytes, fd) := (fd.lseek64 offset).read 12
  (if bytes.length ≠ 12 then none else some (ChunkHeader.decode bytes), fd)

/-- `read(fd, &fill, sizeof(fill))`, whose result nothing checks. -/
def readFill (fd : Fd) (fill : List Byte) : List Byte × Fd :=
  let (bytes, fd) := fd.read 4
  (bytes ++ fill.drop bytes.length, fd)

def mul32 (a b : Nat) : Nat := a * b % 2^32

def chunkBufferFill : BufScan (List Byte) := fun buffer fill =>
  ((List.range buffer.length).map fun j =>
    if j < buffer.length / 4 * 4 then fill.getD (j % 4) 0#8 else buffer.getD j 0#8, fill)

/-- The offsets are `size_t`: 2^32 - 1 chunks of less than 2^32 bytes do not make them wrap. -/
structure SparseUnpack where
  fd : Fd
  fdout : Fd
  offsetIn : Nat
  offsetOut : Nat
  fill : List Byte

/-- The body of the loop of `sparse_unpack2fd`; `none` stands for its error return. -/
def sparseUnpackChunk (junk : Nat → Byte) (header : SparseHeader) (fast : Bool) (st : SparseUnpack) :
    Option SparseUnpack :=
  match readChunkHeader st.fd st.offsetIn with
  | (none, _) => none
  | (some chunk, fd) =>
    let offsetIn := st.offsetIn + chunk.totalSz
    if chunk.chunkType = CHUNK_TYPE_RAW then
      let totalDataSize := (chunk.totalSz + 2^32 - 12) % 2^32
      let done := dd64 junk (some fd) (some st.fdout) (st.offsetIn + 12) st.offsetOut totalDataSize
        (none : Option (BufScan Unit)) ()
      if done.copied ≠ totalDataSize then none
      else some ⟨done.src.getD fd, done.dst.getD st.fdout, offsetIn, st.offsetOut + totalDataSize, st.fill⟩
    else if chunk.chunkType = CHUNK_TYPE_DONT_CARE then
      let totalDataSize := mul32 chunk.chunkSz header.blkSz
      let fdout := if fast then st.fdout
        else (dd64 junk none (some st.fdout) 0 st.offsetOut totalDataSize
          (none : Option (BufScan Unit)) ()).dst.getD st.fdout
      some ⟨fd, fdout, offsetIn, st.offsetOut + totalDataSize, st.fill⟩
    else if chunk.chunkType = CHUNK_TYPE_FILL then
      let totalDataSize := mul32 chunk.chunkSz header.blkSz
      if chunk.totalSz ≠ 16 then none
      else
        let (fill, fd) := readFill fd st.fill
        let done := dd64 junk none (some st.fdout) 0 st.offsetOut totalDataSize (some chunkBufferFill) fill
        some ⟨fd, done.dst.getD st.fdout, offsetIn, st.offsetOut + totalDataSize, fill⟩
    else if chunk.chunkType = CHUNK_TYPE_CRC32 then
      some ⟨fd, st.fdout, offsetIn, st.offsetOut, st.fill⟩
    else none

def sparseUnpackLoop (junk : Nat → Byte) (header : SparseHeader) (fast : Bool) :
    Nat → SparseUnpack → Option SparseUnpack
  | 0, st => some st
  | chunks + 1, st => (sparseUnpackChunk junk header fast st).bind (sparseUnpackLoop junk header fast chunks)

/-- `sparse_unpack2fd`. `fill` is what its uninitialized `fill` happens to hold. -/
def sparseUnpack2fd (junk : Nat → Byte) (fill : List Byte) (header : SparseHeader) (fast : Bool)
    (fd fdout : Fd) : Option Fd :=
  (sparseUnpackLoop junk header fast header.totalChunks ⟨fd, fdout, header.fileHdrSz, 0, fill⟩).map
    SparseUnpack.fdout

/-- The SHA-1 context, as the bytes hashed so far. -/
abbrev HashStream := List Byte

def sparseHashUpdate : BufScan HashStream := fun buffer hash => (buffer, hash ++ buffer)

def blkbufFill (blkbuf fill : List Byte) : List Byte := (chunkBufferFill blkbuf fill).1

structure SparseSha1sum where
  fd : Fd
  offset : Nat
  hash : HashStream
  blkbuf : List Byte
  fill : List Byte

/-- The RAW case of `sparse_sha1sum`: one `dd64` for every block, short copies ignored. -/
def sparseHashRaw (junk : Nat → Byte) (blkSz offset chunkSz : Nat) (st : Fd × HashStream) : Fd × HashStream :=
  (List.range chunkSz).foldl (fun (fd, hash) i =>
    let done := dd64 junk (some fd) none (offset + 12 + i * blkSz) 0 blkSz (some sparseHashUpdate) hash
    (done.src.getD fd, done.scan)) st

def hashBlocks (blkbuf : List Byte) (chunkSz : Nat) (hash : HashStream) : HashStream :=
  (List.range chunkSz).foldl (fun hash _ => (sparseHashUpdate blkbuf hash).2) hash

def sparseSha1sumChunk (junk : Nat → Byte) (header : SparseHeader) (st : SparseSha1sum) :
    Option SparseSha1sum :=
  match readChunkHeader st.fd st.offset with
  | (none, _) => none
  | (some chunk, fd) =>
    let offset := st.offset + chunk.totalSz
    if chunk.chunkType = CHUNK_TYPE_RAW then
      let (fd, hash) := sparseHashRaw junk header.blkSz st.offset chunk.chunkSz (fd, st.hash)
      some ⟨fd, offset, hash, st.blkbuf, st.fill⟩
    else if chunk.chunkType = CHUNK_TYPE_DONT_CARE then
      let blkbuf := List.replicate st.blkbuf.length 0#8
      some ⟨fd, offset, hashBlocks blkbuf chunk.chunkSz st.hash, blkbuf, st.fill⟩
    else if chunk.chunkType = CHUNK_TYPE_CRC32 then
      some ⟨fd, offset, st.hash, st.blkbuf, st.fill⟩
    else if chunk.chunkType = CHUNK_TYPE_FILL then
      if chunk.totalSz ≠ 16 then none
      else
        let (fill, fd) := readFill fd st.fill
        let blkbuf := blkbufFill st.blkbuf fill
        some ⟨fd, offset, hashBlocks blkbuf chunk.chunkSz st.hash, blkbuf, fill⟩
    else none

def sparseSha1sumLoop (junk : Nat → Byte) (header : SparseHeader) :
    Nat → SparseSha1sum → Option SparseSha1sum
  | 0, st => some st
  | chunks + 1, st => (sparseSha1sumChunk junk header st).bind (sparseSha1sumLoop junk header chunks)

/-- `sparse_sha1sum`, up to the stream it hashes. `blkbuf` and `fill` are uninitialized memory. -/
def sparseSha1sum (junk : Nat → Byte) (blkbuf fill : List Byte) (header : SparseHeader) (fd : Fd) :
    Option HashStream :=
  (sparseSha1sumLoop junk header header.totalChunks ⟨fd, header.fileHdrSz, [], blkbuf, fill⟩).map
    SparseSha1sum.hash

end ImgEditor
