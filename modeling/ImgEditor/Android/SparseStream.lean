import ImgEditor.Android.SparseUnpack

namespace ImgEditor

open Storage

/-- The chunk headers of an image, each behind the `total_sz` bytes of the one before. -/
def SparseChunksAt (f : File) : Nat → List ChunkHeader → Prop
  | _, [] => True
  | offset, ch :: rest =>
    offset + 12 ≤ f.size ∧ ChunkHeader.decode (f.slice offset 12) = ch ∧
      SparseChunksAt f (offset + ch.totalSz) rest

/-- The fill word of a chunk at `offset`; what the file does not hold keeps its old value. -/
def storedFill (f : File) (offset : Nat) (fill : List Byte) : List Byte :=
  f.readAt (offset + 12) 4 ++ fill.drop (f.readAt (offset + 12) 4).length

def fillPattern (fill : List Byte) (count : Nat) : List Byte :=
  (List.range count).map fun j => fill.getD (j % 4) 0#8

/-- The content `count` bytes long of a chunk, once its fill word is known. -/
def chunkContent (f : File) (offset : Nat) (fill : List Byte) (ch : ChunkHeader) (count : Nat) : List Byte :=
  if ch.chunkType = CHUNK_TYPE_RAW then f.slice (offset + 12) count
  else if ch.chunkType = CHUNK_TYPE_DONT_CARE then List.replicate count 0#8
  else if ch.chunkType = CHUNK_TYPE_FILL then fillPattern fill count
  else []

def nextFill (f : File) (offset : Nat) (fill : List Byte) (ch : ChunkHeader) : List Byte :=
  if ch.chunkType = CHUNK_TYPE_FILL then storedFill f offset fill else fill

/-- The meaning of a chunk list, for a reading of its sizes. -/
def chunkStream (size : ChunkHeader → Nat) (f : File) : Nat → List Byte → List ChunkHeader → List Byte
  | _, _, [] => []
  | offset, fill, ch :: rest =>
    chunkContent f offset (nextFill f offset fill ch) ch (size ch) ++
      chunkStream size f (offset + ch.totalSz) (nextFill f offset fill ch) rest

def unpackedSize (blkSz : Nat) (ch : ChunkHeader) : Nat :=
  if ch.chunkType = CHUNK_TYPE_RAW then (ch.totalSz + 2^32 - 12) % 2^32
  else if ch.chunkType = CHUNK_TYPE_CRC32 then 0
  else mul32 ch.chunkSz blkSz

def hashedSize (blkSz : Nat) (ch : ChunkHeader) : Nat :=
  if ch.chunkType = CHUNK_TYPE_CRC32 then 0 else ch.chunkSz * blkSz

theorem readChunkHeader_slice (fd : Fd) (offset : Nat) (inside : offset + 12 ≤ fd.file.size)
    (bound : offset < 2^63) :
    readChunkHeader fd offset =
      (some (ChunkHeader.decode (fd.file.slice offset 12)), ⟨fd.file, fd.start, offset + 12⟩) := by
  have position := fd.lseek64_pos offset bound
  have bytes := fd.file.readAt_full offset 12 inside
  simp [readChunkHeader, Fd.read, position, bytes]

theorem readFill_eq (f : File) (start offset : Nat) (fill : List Byte) :
    ∃ pos, readFill ⟨f, start, offset + 12⟩ fill = (storedFill f offset fill, ⟨f, start, pos⟩) :=
  ⟨_, rfl⟩

theorem fillPattern_length (fill : List Byte) (count : Nat) : (fillPattern fill count).length = count := by
  simp [fillPattern]

theorem fillPattern_add (fill : List Byte) (m n : Nat) (aligned : m % 4 = 0) :
    fillPattern fill (m + n) = fillPattern fill m ++ fillPattern fill n := by
  simp only [fillPattern, List.range_add, List.map_append, List.map_map]
  congr 1
  apply List.map_congr_left
  intro i _
  simp only [Function.comp]
  congr 1
  omega

theorem chunkContent_length (f : File) (offset : Nat) (fill : List Byte) (ch : ChunkHeader) (count : Nat)
    (known : ch.chunkType ∈ [CHUNK_TYPE_RAW, CHUNK_TYPE_FILL, CHUNK_TYPE_DONT_CARE, CHUNK_TYPE_CRC32])
    (none : ch.chunkType = CHUNK_TYPE_CRC32 → count = 0) :
    (chunkContent f offset fill ch count).length = count := by
  unfold chunkContent
  split
  · simp
  · split
    · simp
    · split
      · exact fillPattern_length fill count
      · have crc : ch.chunkType = CHUNK_TYPE_CRC32 := by
          simp only [List.mem_cons, List.not_mem_nil, or_false] at known
          tauto
        rw [none crc]
        rfl

theorem chunkBufferFill_zeros (fill : List Byte) (count : Nat) (aligned : count % 4 = 0) :
    chunkBufferFill (List.replicate count 0#8) fill = (fillPattern fill count, fill) := by
  simp only [chunkBufferFill, fillPattern, List.length_replicate]
  congr 1
  apply List.map_congr_left
  intro j member
  rw [List.mem_range] at member
  rw [if_pos (by omega)]

theorem chunkBufferFill_piecewise : Piecewise chunkBufferFill where
  keeps := by
    intro bytes s
    simp [chunkBufferFill]
  empty := by
    intro s
    rfl
  append := by
    intro left right s length
    have aligned : left.length % 4 = 0 := by
      rw [length]
      rfl
    simp only [chunkBufferFill, List.length_append, List.range_add, List.map_append, List.map_map]
    congr 2
    · apply List.map_congr_left
      intro j member
      rw [List.mem_range] at member
      rw [if_pos (by omega), if_pos (by omega)]
    · apply List.map_congr_left
      intro j member
      rw [List.mem_range] at member
      simp only [Function.comp]
      have same : (left.length + j) % 4 = j % 4 := by omega
      rw [same]
      by_cases word : j < right.length / 4 * 4
      · rw [if_pos (by omega), if_pos word]
      · rw [if_neg (by omega), if_neg word, List.getD_append_right _ _ _ _ (by omega),
          Nat.add_sub_cancel_left]

theorem sparseHashUpdate_piecewise : Piecewise sparseHashUpdate where
  keeps := fun _ _ => rfl
  empty := by
    intro s
    simp [sparseHashUpdate]
  append := by
    intro left right s _
    simp [sparseHashUpdate]

theorem hashBlocks_eq (blkbuf : List Byte) (chunkSz : Nat) (hash : HashStream) :
    hashBlocks blkbuf chunkSz hash = hash ++ (List.replicate chunkSz blkbuf).flatten := by
  unfold hashBlocks
  induction chunkSz with
  | zero => simp
  | succ chunkSz ih =>
    rw [List.range_succ, List.foldl_append, ih, List.replicate_succ', List.flatten_append]
    simp [sparseHashUpdate]

theorem blkbufFill_eq (blkbuf fill : List Byte) (aligned : blkbuf.length % 4 = 0) :
    blkbufFill blkbuf fill = fillPattern fill blkbuf.length := by
  simp only [blkbufFill, chunkBufferFill, fillPattern]
  apply List.map_congr_left
  intro j member
  rw [List.mem_range] at member
  rw [if_pos (by omega)]

theorem fillPattern_blocks (fill : List Byte) (blkSz chunkSz : Nat) (aligned : blkSz % 4 = 0) :
    (List.replicate chunkSz (fillPattern fill blkSz)).flatten = fillPattern fill (chunkSz * blkSz) := by
  induction chunkSz with
  | zero => simp [fillPattern]
  | succ chunkSz ih =>
    rw [List.replicate_succ, List.flatten_cons, ih, Nat.succ_mul, Nat.add_comm,
      fillPattern_add _ _ _ aligned]

/-- What `sparse_unpack2fd` checks of a chunk: a known type, a fill chunk of 16 bytes, all RAW data. -/
def ChunkOk (f : File) (blkSz offset : Nat) (ch : ChunkHeader) : Prop :=
  ch.chunkType ∈ [CHUNK_TYPE_RAW, CHUNK_TYPE_FILL, CHUNK_TYPE_DONT_CARE, CHUNK_TYPE_CRC32] ∧
    (ch.chunkType = CHUNK_TYPE_FILL → ch.totalSz = 16) ∧
    (ch.chunkType = CHUNK_TYPE_RAW → unpackedSize blkSz ch ≤ f.size - (offset + 12))

section Chunk

variable (junk : Nat → Byte) (header : SparseHeader) {f : File} {offset : Nat} {ch : ChunkHeader}

theorem rawCopy (f : File) (offset : Nat) (fdout : Fd) (size out : Nat) (bound : offset + 12 < 2^63) :
    let done := dd64 junk (some ⟨f, 0, offset + 12⟩) (some fdout) (offset + 12) out size
      (none : Option (BufScan Unit)) ()
    (∃ pos, done.src = some ⟨f, 0, pos⟩) ∧
      done.dst = some ((fdout.fileseek out).write (f.readAt (offset + 12) size)) ∧
      done.copied = min size (f.size - (offset + 12)) := by
  obtain ⟨source, target, copied, _⟩ := dd64_copy junk (some ⟨f, 0, offset + 12⟩) (some fdout)
    (offset + 12) out size () (by simp)
  have position : (Fd.fileseek ⟨f, 0, offset + 12⟩ (offset + 12)).pos = offset + 12 := by
    rw [Fd.fileseek_pos _ _ (by simpa using bound), Nat.zero_add]
  simp only [Option.map_some, ddStream, position, Fd.fileseek_file] at source target copied
  refine ⟨⟨_, by rw [source]; simp [ddAdvance]; rfl⟩, target, ?_⟩
  rw [copied, File.readAt_length]

theorem sparseHashRaw_slice (blkSz offset chunkSz pos : Nat) (hash : HashStream)
    (inside : offset + 12 + chunkSz * blkSz ≤ f.size) (limit : f.size < 2^63) :
    ∃ pos', sparseHashRaw junk blkSz offset chunkSz (⟨f, 0, pos⟩, hash) =
      (⟨f, 0, pos'⟩, hash ++ f.slice (offset + 12) (chunkSz * blkSz)) := by
  unfold sparseHashRaw
  induction chunkSz with
  | zero => exact ⟨pos, by simp⟩
  | succ chunkSz ih =>
    rw [Nat.succ_mul] at inside
    obtain ⟨before, run⟩ := ih (by omega)
    have position : (Fd.fileseek ⟨f, 0, before⟩ (offset + 12 + chunkSz * blkSz)).pos =
        offset + 12 + chunkSz * blkSz := by
      rw [Fd.fileseek_pos _ _ (by simp only; omega), Nat.zero_add]
    have stream : ddStream (some (Fd.fileseek ⟨f, 0, before⟩ (offset + 12 + chunkSz * blkSz))) blkSz =
        f.slice (offset + 12 + chunkSz * blkSz) blkSz := by
      rw [ddStream, position, Fd.fileseek_file]
      exact f.readAt_full _ _ (by omega)
    obtain ⟨source, _, scan⟩ := dd64_scan sparseHashUpdate_piecewise junk (some ⟨f, 0, before⟩) none
      (offset + 12 + chunkSz * blkSz) 0 blkSz (hash ++ f.slice (offset + 12) (chunkSz * blkSz)) (by simp)
      (by rw [Option.map_some, stream, File.slice_length])
    simp only [Option.map_some, stream] at source scan
    rw [List.range_succ, List.foldl_append, run]
    simp only [List.foldl_cons, List.foldl_nil, source, scan, sparseHashUpdate]
    refine ⟨offset + 12 + chunkSz * blkSz + blkSz, ?_⟩
    rw [Nat.succ_mul, File.slice_add, List.append_assoc]
    simp [ddAdvance, position]

theorem sparseUnpackChunk_checks {st st' : SparseUnpack} (reading : st.fd.file = f)
    (plain : st.fd.start = 0) (here : st.offsetIn = offset) (inside : offset + 12 ≤ f.size)
    (limit : f.size < 2^63) (read : ChunkHeader.decode (f.slice offset 12) = ch)
    (step : sparseUnpackChunk junk header false st = some st') : ChunkOk f header.blkSz offset ch := by
  subst reading here
  have first := readChunkHeader_slice st.fd st.offsetIn inside (by omega)
  rw [read, plain] at first
  simp only [sparseUnpackChunk, first] at step
  by_cases raw : ch.chunkType = CHUNK_TYPE_RAW
  · obtain ⟨_, _, copied⟩ := rawCopy junk st.fd.file st.offsetIn st.fdout
      ((ch.totalSz + 2^32 - 12) % 2^32) st.offsetOut (by omega)
    rw [if_pos raw] at step
    refine ⟨by simp [raw], fun fill => ?_, fun _ => ?_⟩
    · rw [raw] at fill
      exact absurd fill raw_ne_fill
    · unfold unpackedSize
      rw [if_pos raw]
      by_contra short
      rw [copied, if_pos (by omega)] at step
      contradiction
  · rw [if_neg raw] at step
    by_cases dontcare : ch.chunkType = CHUNK_TYPE_DONT_CARE
    · refine ⟨by simp [dontcare], fun fill => ?_, fun impossible => absurd impossible raw⟩
      rw [dontcare] at fill
      exact absurd fill dontcare_ne_fill
    · rw [if_neg dontcare] at step
      by_cases fill : ch.chunkType = CHUNK_TYPE_FILL
      · rw [if_pos fill] at step
        refine ⟨by simp [fill], fun _ => ?_, fun impossible => absurd impossible raw⟩
        by_contra size
        rw [if_pos size] at step
        contradiction
      · rw [if_neg fill] at step
        by_cases crc : ch.chunkType = CHUNK_TYPE_CRC32
        · exact ⟨by simp [crc], fun impossible => absurd impossible fill,
            fun impossible => absurd impossible raw⟩
        · rw [if_neg crc] at step
          contradiction

theorem sparseUnpackChunk_content (st : SparseUnpack) (reading : st.fd.file = f) (plain : st.fd.start = 0)
    (plainOut : st.fdout.start = 0) (here : st.offsetIn = offset) (inside : offset + 12 ≤ f.size)
    (limit : f.size < 2^63) (room : st.offsetOut < 2^63) (aligned : header.blkSz % 4 = 0)
    (read : ChunkHeader.decode (f.slice offset 12) = ch) (ok : ChunkOk f header.blkSz offset ch) :
    ∃ pos fdout, sparseUnpackChunk junk header false st =
        some ⟨⟨f, 0, pos⟩, fdout, offset + ch.totalSz, st.offsetOut + unpackedSize header.blkSz ch,
          nextFill f offset st.fill ch⟩ ∧
      fdout.start = 0 ∧
      fdout.file = st.fdout.file.writeAt st.offsetOut
        (chunkContent f offset (nextFill f offset st.fill ch) ch (unpackedSize header.blkSz ch)) := by
  subst reading here
  have first := readChunkHeader_slice st.fd st.offsetIn inside (by omega)
  rw [read, plain] at first
  obtain ⟨known, size, full⟩ := ok
  have position : (st.fdout.fileseek st.offsetOut).pos = st.offsetOut := by
    rw [Fd.fileseek_pos _ _ (by omega), plainOut, Nat.zero_add]
  obtain ⟨chunkType, reserved1, chunkSz, totalSz⟩ := ch
  simp only [List.mem_cons, List.not_mem_nil, or_false] at known
  rcases known with rfl | rfl | rfl | rfl
  · have fits := full rfl
    simp only [unpackedSize, ↓reduceIte] at fits
    obtain ⟨⟨pos, source⟩, target, copied⟩ := rawCopy junk st.fd.file st.offsetIn st.fdout
      ((totalSz + 2^32 - 12) % 2^32) st.offsetOut (by omega)
    rw [Nat.min_eq_left fits] at copied
    refine ⟨pos, (st.fdout.fileseek st.offsetOut).write
      (st.fd.file.readAt (st.offsetIn + 12) ((totalSz + 2^32 - 12) % 2^32)), ?_, ?_, ?_⟩
    · simp only [sparseUnpackChunk, first, ↓reduceIte, copied, ne_eq, not_true_eq_false, source, target,
        Option.getD_some, unpackedSize, nextFill, raw_ne_fill]
    · rw [Fd.write_start, Fd.fileseek_start, plainOut]
    · rw [Fd.write_file, Fd.fileseek_file, position, File.readAt, Nat.min_eq_left fits]
      simp [chunkContent, unpackedSize]
  · have word := size rfl
    simp only at word
    subst word
    obtain ⟨pos, fill⟩ := readFill_eq st.fd.file 0 st.offsetIn st.fill
    obtain ⟨_, target, _⟩ := dd64_scan chunkBufferFill_piecewise junk none (some st.fdout) 0 st.offsetOut
      (mul32 chunkSz header.blkSz) (storedFill st.fd.file st.offsetIn st.fill) (by simp)
      (by simp [ddStream])
    have multiple : mul32 chunkSz header.blkSz % 4 = 0 := by
      have product : chunkSz * header.blkSz % 4 = 0 := by
        rw [Nat.mul_mod, aligned, Nat.mul_zero]
      unfold mul32
      omega
    simp only [Option.map_none, Option.map_some, ddStream, chunkBufferFill_zeros _ _ multiple] at target
    refine ⟨pos, (st.fdout.fileseek st.offsetOut).write
      (fillPattern (storedFill st.fd.file st.offsetIn st.fill) (mul32 chunkSz header.blkSz)), ?_, ?_, ?_⟩
    · simp [sparseUnpackChunk, first, fill, target, unpackedSize, nextFill]
    · rw [Fd.write_start, Fd.fileseek_start, plainOut]
    · rw [Fd.write_file, Fd.fileseek_file, position]
      simp [chunkContent, unpackedSize, nextFill]
  · obtain ⟨_, target, _, _⟩ := dd64_copy junk none (some st.fdout) 0 st.offsetOut
      (mul32 chunkSz header.blkSz) () (by simp)
    simp only [Option.map_none, Option.map_some, ddStream] at target
    refine ⟨st.offsetIn + 12, (st.fdout.fileseek st.offsetOut).write
      (List.replicate (mul32 chunkSz header.blkSz) 0#8), ?_, ?_, ?_⟩
    · simp [sparseUnpackChunk, first, target, unpackedSize, nextFill]
    · rw [Fd.write_start, Fd.fileseek_start, plainOut]
    · rw [Fd.write_file, Fd.fileseek_file, position]
      simp [chunkContent, unpackedSize]
  · refine ⟨st.offsetIn + 12, st.fdout, ?_, plainOut, ?_⟩
    · simp [sparseUnpackChunk, first, unpackedSize, nextFill]
    · simp [chunkContent]

theorem sparseSha1sumChunk_content (st : SparseSha1sum) (reading : st.fd.file = f) (plain : st.fd.start = 0)
    (here : st.offset = offset) (inside : offset + 12 ≤ f.size) (limit : f.size < 2^63)
    (width : st.blkbuf.length = header.blkSz) (aligned : header.blkSz % 4 = 0)
    (read : ChunkHeader.decode (f.slice offset 12) = ch) (ok : ChunkOk f header.blkSz offset ch)
    (covered : ch.chunkType = CHUNK_TYPE_RAW → ch.chunkSz * header.blkSz ≤ unpackedSize header.blkSz ch) :
    ∃ pos blkbuf, sparseSha1sumChunk junk header st =
        some ⟨⟨f, 0, pos⟩, offset + ch.totalSz,
          st.hash ++ chunkContent f offset (nextFill f offset st.fill ch) ch (hashedSize header.blkSz ch),
          blkbuf, nextFill f offset st.fill ch⟩ ∧
      blkbuf.length = header.blkSz := by
  subst reading here
  have first := readChunkHeader_slice st.fd st.offset inside (by omega)
  rw [read, plain] at first
  obtain ⟨known, size, full⟩ := ok
  obtain ⟨chunkType, reserved1, chunkSz, totalSz⟩ := ch
  simp only [List.mem_cons, List.not_mem_nil, or_false] at known
  rcases known with rfl | rfl | rfl | rfl
  · have data := Nat.le_trans (covered rfl) (full rfl)
    simp only at data
    obtain ⟨pos, hashed⟩ := sparseHashRaw_slice junk (f := st.fd.file) header.blkSz st.offset chunkSz
      (st.offset + 12) st.hash (by omega) (by omega)
    refine ⟨pos, st.blkbuf, ?_, width⟩
    simp only [sparseSha1sumChunk, first, ↓reduceIte, hashed, chunkContent, hashedSize, nextFill,
      raw_ne_fill, raw_ne_crc32]
  · have word := size rfl
    simp only at word
    subst word
    obtain ⟨pos, fill⟩ := readFill_eq st.fd.file 0 st.offset st.fill
    have pattern := blkbufFill_eq st.blkbuf (storedFill st.fd.file st.offset st.fill) (by omega)
    refine ⟨pos, blkbufFill st.blkbuf (storedFill st.fd.file st.offset st.fill), ?_, ?_⟩
    · rw [width] at pattern
      simp [sparseSha1sumChunk, first, fill, hashBlocks_eq, pattern, fillPattern_blocks _ _ _ aligned,
        chunkContent, hashedSize, nextFill]
    · rw [pattern, fillPattern_length, width]
  · refine ⟨st.offset + 12, List.replicate st.blkbuf.length 0#8, ?_, by rw [List.length_replicate, width]⟩
    simp [sparseSha1sumChunk, first, hashBlocks_eq, width, chunkContent, hashedSize, nextFill,
      List.flatten_replicate_replicate]
  · refine ⟨st.offset + 12, st.blkbuf, ?_, width⟩
    simp [sparseSha1sumChunk, first, chunkContent, nextFill]

end Chunk

end ImgEditor
