import ImgEditor.Fs.SparseChunk

namespace ImgEditor

open Storage

theorem mul32_le (a b : Nat) : mul32 a b ≤ a * b := Nat.mod_le _ _

theorem mul32_lt (a b : Nat) : mul32 a b < 2^32 := Nat.mod_lt _ (by decide)

theorem mul32_eq_self {a b : Nat} (small : a * b < 2^32) : mul32 a b = a * b := Nat.mod_eq_of_lt small

theorem mul32_mod (a b : Nat) : mul32 (a % 2^32) b = mul32 a b := by
  unfold mul32
  rw [Nat.mod_mul_mod]

theorem readChunkHeader_at (fd : Fd) (offset : Nat) (ch : ChunkHeader) (bound : offset < 2^63)
    (stored : fd.file.Holds offset ch.encode) :
    readChunkHeader fd offset =
      (some (ChunkHeader.decode ch.encode), ⟨fd.file, fd.start, offset + 12⟩) := by
  have position := fd.lseek64_pos offset bound
  have bytes := stored.readAt
  rw [ChunkHeader.encode_length] at bytes
  have length := ch.encode_length
  simp [readChunkHeader, Fd.read, position, bytes, length]

theorem ChunkHeader.decode_encode_raw (len blksz : Nat) :
    ChunkHeader.decode (ChunkHeader.encode ⟨CHUNK_TYPE_RAW, 0, len, len * blksz + 12⟩) =
      ⟨CHUNK_TYPE_RAW, 0, len % 2^32, (len * blksz + 12) % 2^32⟩ := by
  rw [ChunkHeader.decode_encode]
  rfl

theorem ChunkHeader.decode_encode_dontcare (len : Nat) :
    ChunkHeader.decode (ChunkHeader.encode ⟨CHUNK_TYPE_DONT_CARE, 0, len, 12⟩) =
      ⟨CHUNK_TYPE_DONT_CARE, 0, len % 2^32, 12⟩ := by
  rw [ChunkHeader.decode_encode]
  rfl

section Unpack

variable (junk : Nat → Byte) (header : SparseHeader)

theorem sparseUnpackChunk_raw (st : SparseUnpack) (len : Nat) (bytes : List Byte)
    (bound : st.offsetIn + 12 < 2^63) (start : st.fd.start = 0)
    (stored : st.fd.file.Holds st.offsetIn
      (ChunkHeader.encode ⟨CHUNK_TYPE_RAW, 0, len, len * header.blkSz + 12⟩))
    (data : st.fd.file.readAt (st.offsetIn + 12) (mul32 len header.blkSz) = bytes)
    (full : bytes.length = mul32 len header.blkSz) :
    ∃ pos, sparseUnpackChunk junk header false st =
      some ⟨⟨st.fd.file, st.fd.start, pos⟩, (st.fdout.fileseek st.offsetOut).write bytes,
        st.offsetIn + (len * header.blkSz + 12) % 2^32, st.offsetOut + mul32 len header.blkSz, st.fill⟩ := by
  have size : ((len * header.blkSz + 12) % 2^32 + 2^32 - 12) % 2^32 = mul32 len header.blkSz := by
    unfold mul32
    omega
  obtain ⟨source, target, copied, _⟩ := dd64_copy junk
    (some ⟨st.fd.file, st.fd.start, st.offsetIn + 12⟩) (some st.fdout) (st.offsetIn + 12) st.offsetOut
    (mul32 len header.blkSz) () (by simp)
  have position : (Fd.fileseek ⟨st.fd.file, st.fd.start, st.offsetIn + 12⟩ (st.offsetIn + 12)).pos =
      st.offsetIn + 12 := by
    rw [Fd.fileseek_pos _ _ (by rw [start]; omega), start, Nat.zero_add]
  have stream : ddStream (some (Fd.fileseek ⟨st.fd.file, st.fd.start, st.offsetIn + 12⟩
      (st.offsetIn + 12))) (mul32 len header.blkSz) = bytes := by
    rw [ddStream, position, Fd.fileseek_file]
    exact data
  simp only [Option.map_some, stream, full] at source target copied
  refine ⟨st.offsetIn + 12 + mul32 len header.blkSz, ?_⟩
  simp only [sparseUnpackChunk, readChunkHeader_at st.fd st.offsetIn _ (by omega) stored,
    ChunkHeader.decode_encode_raw, size, ↓reduceIte, source, target, copied, ne_eq, not_true_eq_false,
    ddAdvance, Option.map_some, Option.getD_some, Fd.fileseek_file, Fd.fileseek_start, position]

theorem sparseUnpackChunk_dontcare (st : SparseUnpack) (len : Nat) (bound : st.offsetIn < 2^63)
    (stored : st.fd.file.Holds st.offsetIn (ChunkHeader.encode ⟨CHUNK_TYPE_DONT_CARE, 0, len, 12⟩)) :
    ∃ pos, sparseUnpackChunk junk header false st =
      some ⟨⟨st.fd.file, st.fd.start, pos⟩,
        (st.fdout.fileseek st.offsetOut).write (List.replicate (mul32 len header.blkSz) 0#8),
        st.offsetIn + 12, st.offsetOut + mul32 len header.blkSz, st.fill⟩ := by
  obtain ⟨_, target, _, _⟩ := dd64_copy junk none (some st.fdout) 0 st.offsetOut
    (mul32 len header.blkSz) () (by simp)
  have other : CHUNK_TYPE_DONT_CARE ≠ CHUNK_TYPE_RAW := by decide
  refine ⟨st.offsetIn + 12, ?_⟩
  simp only [Option.map_none, Option.map_some, ddStream] at target
  simp only [sparseUnpackChunk, readChunkHeader_at st.fd st.offsetIn _ bound stored,
    ChunkHeader.decode_encode_dontcare, other, ↓reduceIte, mul32_mod, Bool.false_eq_true, target,
    Option.getD_some]

theorem sparseUnpackChunk_unknown (st : SparseUnpack) (bound : st.offsetIn < 2^63)
    (unknown : (st.fd.file.byte st.offsetIn).toNat ∉ [0xC1, 0xC2, 0xC3, 0xC4]) :
    sparseUnpackChunk junk header false st = none := by
  have position := st.fd.lseek64_pos st.offsetIn bound
  by_cases short : ((st.fd.lseek64 st.offsetIn).read 12).1.length = 12
  · have whole : ((st.fd.lseek64 st.offsetIn).read 12).1 = st.fd.file.slice st.offsetIn 12 := by
      have length := short
      rw [Fd.read_bytes _ _ (by decide), position, Fd.lseek64_file] at length ⊢
      rw [File.readAt_length] at length
      exact st.fd.file.readAt_full _ _ (by omega)
    have low : (ChunkHeader.decode (st.fd.file.slice st.offsetIn 12)).chunkType % 256 =
        (st.fd.file.byte st.offsetIn).toNat := by
      have small := (st.fd.file.byte st.offsetIn).isLt
      simp only [ChunkHeader.decode, leField, File.slice, List.range_succ_eq_map, List.map_cons,
        List.drop_zero, List.take_succ_cons, leNumber, Nat.add_zero]
      omega
    generalize decoded : ChunkHeader.decode (st.fd.file.slice st.offsetIn 12) = chunk at low
    simp only [List.mem_cons, List.not_mem_nil, or_false, not_or] at unknown
    have raw : chunk.chunkType ≠ CHUNK_TYPE_RAW := by
      unfold CHUNK_TYPE_RAW
      omega
    have dontcare : chunk.chunkType ≠ CHUNK_TYPE_DONT_CARE := by
      unfold CHUNK_TYPE_DONT_CARE
      omega
    have fill : chunk.chunkType ≠ CHUNK_TYPE_FILL := by
      unfold CHUNK_TYPE_FILL
      omega
    have crc : chunk.chunkType ≠ CHUNK_TYPE_CRC32 := by
      unfold CHUNK_TYPE_CRC32
      omega
    simp [sparseUnpackChunk, readChunkHeader, whole, decoded, raw, dontcare, fill, crc]
  · simp [sparseUnpackChunk, readChunkHeader, short]

end Unpack

end ImgEditor
