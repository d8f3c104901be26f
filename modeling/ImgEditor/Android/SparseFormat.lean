import ImgEditor.Storage.File

namespace ImgEditor

open Storage

def SPARSE_HEADER_MAGIC : Nat := 0xed26ff3a
def CHUNK_TYPE_RAW : Nat := 0xCAC1
def CHUNK_TYPE_FILL : Nat := 0xCAC2
def CHUNK_TYPE_DONT_CARE : Nat := 0xCAC3
def CHUNK_TYPE_CRC32 : Nat := 0xCAC4

@[simp] theorem fill_ne_raw : CHUNK_TYPE_FILL ≠ CHUNK_TYPE_RAW := by decide
@[simp] theorem dontcare_ne_raw : CHUNK_TYPE_DONT_CARE ≠ CHUNK_TYPE_RAW := by decide
@[simp] theorem crc32_ne_raw : CHUNK_TYPE_CRC32 ≠ CHUNK_TYPE_RAW := by decide
@[simp] theorem raw_ne_crc32 : CHUNK_TYPE_RAW ≠ CHUNK_TYPE_CRC32 := by decide
@[simp] theorem raw_ne_fill : CHUNK_TYPE_RAW ≠ CHUNK_TYPE_FILL := by decide
@[simp] theorem fill_ne_dontcare : CHUNK_TYPE_FILL ≠ CHUNK_TYPE_DONT_CARE := by decide
@[simp] theorem dontcare_ne_fill : CHUNK_TYPE_DONT_CARE ≠ CHUNK_TYPE_FILL := by decide
@[simp] theorem crc32_ne_dontcare : CHUNK_TYPE_CRC32 ≠ CHUNK_TYPE_DONT_CARE := by decide
@[simp] theorem dontcare_ne_crc32 : CHUNK_TYPE_DONT_CARE ≠ CHUNK_TYPE_CRC32 := by decide
@[simp] theorem crc32_ne_fill : CHUNK_TYPE_CRC32 ≠ CHUNK_TYPE_FILL := by decide
@[simp] theorem fill_ne_crc32 : CHUNK_TYPE_FILL ≠ CHUNK_TYPE_CRC32 := by decide

/-- The 28 bytes at the start of a sparse image. -/
structure SparseHeader where
  magic : Nat
  majorVersion : Nat
  minorVersion : Nat
  fileHdrSz : Nat
  chunkHdrSz : Nat
  blkSz : Nat
  totalBlks : Nat
  totalChunks : Nat
  imageChecksum : Nat
deriving DecidableEq, Repr

def SparseHeader.encode (h : SparseHeader) : List Byte :=
  leBytes 4 h.magic ++ (leBytes 2 h.majorVersion ++ (leBytes 2 h.minorVersion ++ (leBytes 2 h.fileHdrSz ++
    (leBytes 2 h.chunkHdrSz ++ (leBytes 4 h.blkSz ++ (leBytes 4 h.totalBlks ++
      (leBytes 4 h.totalChunks ++ leBytes 4 h.imageChecksum)))))))

/-- Bytes that a short read left out keep the zero they were allocated with. -/
def SparseHeader.decode (bytes : List Byte) : SparseHeader where
  magic := leField bytes 0 4
  majorVersion := leField bytes 4 2
  minorVersion := leField bytes 6 2
  fileHdrSz := leField bytes 8 2
  chunkHdrSz := leField bytes 10 2
  blkSz := leField bytes 12 4
  totalBlks := leField bytes 16 4
  totalChunks := leField bytes 20 4
  imageChecksum := leField bytes 24 4

@[simp] theorem SparseHeader.encode_length (h : SparseHeader) : h.encode.length = 28 := by
  simp [SparseHeader.encode]

theorem SparseHeader.decode_encode (h : SparseHeader) :
    SparseHeader.decode h.encode =
      ⟨h.magic % 2^32, h.majorVersion % 2^16, h.minorVersion % 2^16, h.fileHdrSz % 2^16,
        h.chunkHdrSz % 2^16, h.blkSz % 2^32, h.totalBlks % 2^32, h.totalChunks % 2^32,
        h.imageChecksum % 2^32⟩ := by
  simp [SparseHeader.decode, SparseHeader.encode]

/-- The 12 bytes in front of the data of every chunk. -/
structure ChunkHeader where
  chunkType : Nat
  reserved1 : Nat
  chunkSz : Nat
  totalSz : Nat
deriving DecidableEq, Repr

def ChunkHeader.encode (ch : ChunkHeader) : List Byte :=
  leBytes 2 ch.chunkType ++ (leBytes 2 ch.reserved1 ++ (leBytes 4 ch.chunkSz ++ leBytes 4 ch.totalSz))

def ChunkHeader.decode (bytes : List Byte) : ChunkHeader where
  chunkType := leField bytes 0 2
  reserved1 := leField bytes 2 2
  chunkSz := leField bytes 4 4
  totalSz := leField bytes 8 4

@[simp] theorem ChunkHeader.encode_length (ch : ChunkHeader) : ch.encode.length = 12 := by
  simp [ChunkHeader.encode]

theorem ChunkHeader.decode_encode (ch : ChunkHeader) :
    ChunkHeader.decode ch.encode =
      ⟨ch.chunkType % 2^16, ch.reserved1 % 2^16, ch.chunkSz % 2^32, ch.totalSz % 2^32⟩ := by
  simp [ChunkHeader.decode, ChunkHeader.encode]

end ImgEditor
