import ImgEditor.Android.SparseDigest
import ImgEditor.Storage.ZeroTail

namespace ImgEditor

open Storage

/-- What a chunk makes of the descriptor behind its header, what it writes, and the fill word it leaves. -/
def chunkWrite (blkSz : Nat) (fd : Fd) (offset : Nat) (ch : ChunkHeader) (fill : List Byte) :
    Option (Fd × List Byte × List Byte) :=
  if ch.chunkType = CHUNK_TYPE_RAW then
    let bytes := ddStream (some (fd.fileseek (offset + 12))) (unpackedSize blkSz ch)
    if bytes.length ≠ unpackedSize blkSz ch then none
    else some ({ fd.fileseek (offset + 12) with pos := (fd.fileseek (offset + 12)).pos + bytes.length }, bytes, fill)
  else if ch.chunkType = CHUNK_TYPE_DONT_CARE then some (fd, List.replicate (unpackedSize blkSz ch) 0#8, fill)
  else if ch.chunkType = CHUNK_TYPE_FILL then
    if ch.totalSz ≠ 16 then none
    else
      let (fill, fd) := readFill fd fill
      some (fd, (chunkBufferFill (List.replicate (unpackedSize blkSz ch) 0#8) fill).1, fill)
  else if ch.chunkType = CHUNK_TYPE_CRC32 then some (fd, [], fill)
  else none

section Chunk

variable {junk : Nat → Byte} {header : SparseHeader} {fast : Bool} {st : SparseUnpack} {ch : ChunkHeader} {fd : Fd}

/-- The state behind a chunk, by what the chunk writes. -/
structure ChunkDone (header : SparseHeader) (fast : Bool) (st : SparseUnpack) (ch : ChunkHeader)
    (written : Fd × List Byte × List Byte) (next : SparseUnpack) : Prop where
  fd : next.fd = written.1
  fill : next.fill = written.2.2
  offsetIn : next.offsetIn = st.offsetIn + ch.totalSz
  offsetOut : next.offsetOut = st.offsetOut + unpackedSize header.blkSz ch
  start : next.fdout.start = 0
  length : written.2.1.length = unpackedSize header.blkSz ch
  file : next.fdout.file = if fast = true ∧ ch.chunkType = CHUNK_TYPE_DONT_CARE then st.fdout.file
    else st.fdout.file.writeAt st.offsetOut written.2.1

def ChunkWrites (header : SparseHeader) (fast : Bool) (st : SparseUnpack) (ch : ChunkHeader) (step : Option SparseUnpack) :
    Option (Fd × List Byte × List Byte) → Prop
  | none => step = none
  | some written => ∃ next, step = some next ∧ ChunkDone header fast st ch written next

theorem ChunkWrites.write {step : Option SparseUnpack} {fd' : Fd} {bytes fill : List Byte} (plainOut : st.fdout.start = 0)
    (room : st.offsetOut < 2 ^ 63) (length : bytes.length = unpackedSize header.blkSz ch)
    (writes : ¬ (fast = true ∧ ch.chunkType = CHUNK_TYPE_DONT_CARE))
    (done : step = some ⟨fd', (st.fdout.fileseek st.offsetOut).write bytes, st.offsetIn + ch.totalSz,
      st.offsetOut + unpackedSize header.blkSz ch, fill⟩) :
    ChunkWrites header fast st ch step (some (fd', bytes, fill)) := by
  have position : (st.fdout.fileseek st.offsetOut).pos = st.offsetOut := by
    rw [Fd.fileseek_pos _ _ (by omega), plainOut, Nat.zero_add]
  refine ⟨_, done, rfl, rfl, rfl, rfl, ?_, length, ?_⟩
  · rw [Fd.write_start, Fd.fileseek_start, plainOut]
  · rw [if_neg writes, Fd.write_file, Fd.fileseek_file, position]

section Kinds

variable (first : readChunkHeader st.fd st.offsetIn = (some ch, fd)) (plainOut : st.fdout.start = 0)
  (room : st.offsetOut < 2 ^ 63)
include first plainOut room

theorem sparseUnpackChunk_rawWrites (raw : ch.chunkType = CHUNK_TYPE_RAW) : ChunkWrites header fast st ch
    (sparseUnpackChunk junk header fast st) (chunkWrite header.blkSz fd st.offsetIn ch st.fill) := by
  have size : unpackedSize header.blkSz ch = (ch.totalSz + 2^32 - 12) % 2^32 := if_pos raw
  obtain ⟨source, target, copied, _⟩ := dd64_copy junk (some fd) (some st.fdout) (st.offsetIn + 12) st.offsetOut
    (unpackedSize header.blkSz ch) () (by simp)
  simp only [Option.map_some] at source target copied
  rw [chunkWrite, if_pos raw]
  by_cases short : (ddStream (some (fd.fileseek (st.offsetIn + 12))) (unpackedSize header.blkSz ch)).length ≠
      unpackedSize header.blkSz ch
  · simp only [if_pos short]
    simp only [ChunkWrites, sparseUnpackChunk, first, if_pos raw, ← size, copied, if_pos short]
  · simp only [if_neg short]
    apply ChunkWrites.write plainOut room (not_not.mp short) fun skips => dontcare_ne_raw (skips.2.symm.trans raw)
    simp only [sparseUnpackChunk, first, if_pos raw, ← size, copied, if_neg short, source, target, ddAdvance,
      Option.map_some, Option.getD_some]

theorem sparseUnpackChunk_dontcareWrites (dontcare : ch.chunkType = CHUNK_TYPE_DONT_CARE) :
    ChunkWrites header fast st ch (sparseUnpackChunk junk header fast st)
      (chunkWrite header.blkSz fd st.offsetIn ch st.fill) := by
  have raw : ¬ ch.chunkType = CHUNK_TYPE_RAW := fun raw => dontcare_ne_raw (dontcare.symm.trans raw)
  have size : unpackedSize header.blkSz ch = mul32 ch.chunkSz header.blkSz := by simp [unpackedSize, dontcare]
  rw [chunkWrite, if_neg raw, if_pos dontcare]
  cases fast with
  | true =>
    refine ⟨⟨fd, st.fdout, st.offsetIn + ch.totalSz, st.offsetOut + unpackedSize header.blkSz ch, st.fill⟩, ?_, rfl, rfl,
      rfl, rfl, plainOut, List.length_replicate, by rw [if_pos ⟨rfl, dontcare⟩]⟩
    simp [sparseUnpackChunk, first, dontcare, size]
  | false =>
    obtain ⟨_, target, _, _⟩ := dd64_copy junk none (some st.fdout) 0 st.offsetOut (unpackedSize header.blkSz ch) ()
      (by simp)
    simp only [Option.map_none, Option.map_some, ddStream] at target
    refine ChunkWrites.write plainOut room List.length_replicate (by simp) ?_
    rw [size] at target
    simp [sparseUnpackChunk, first, dontcare, size, target]

theorem sparseUnpackChunk_fillWrites (fill : ch.chunkType = CHUNK_TYPE_FILL) : ChunkWrites header fast st ch
    (sparseUnpackChunk junk header fast st) (chunkWrite header.blkSz fd st.offsetIn ch st.fill) := by
  have raw : ¬ ch.chunkType = CHUNK_TYPE_RAW := fun raw => fill_ne_raw (fill.symm.trans raw)
  have dontcare : ¬ ch.chunkType = CHUNK_TYPE_DONT_CARE := fun dontcare => fill_ne_dontcare (fill.symm.trans dontcare)
  have size : unpackedSize header.blkSz ch = mul32 ch.chunkSz header.blkSz := by simp [unpackedSize, fill]
  rw [chunkWrite, if_neg raw, if_neg dontcare, if_pos fill]
  by_cases wide : ch.totalSz ≠ 16
  · rw [if_pos wide, ChunkWrites]
    simp [sparseUnpackChunk, first, fill, wide]
  · obtain ⟨_, target, _⟩ := dd64_scan chunkBufferFill_piecewise junk none (some st.fdout) 0 st.offsetOut
      (unpackedSize header.blkSz ch) (readFill fd st.fill).1 (by simp) (by simp [ddStream])
    simp only [Option.map_none, Option.map_some, ddStream] at target
    rw [if_neg wide]
    have length := (chunkBufferFill_piecewise.keeps (List.replicate (unpackedSize header.blkSz ch) 0#8)
      (readFill fd st.fill).1).trans List.length_replicate
    apply ChunkWrites.write plainOut room length fun skips => dontcare skips.2
    simp only [sparseUnpackChunk, first, if_neg raw, if_neg dontcare, if_pos fill, if_neg wide, ← size, target,
      Option.getD_some]
    rfl

/-- A chunk, with or without `--fast`. -/
theorem sparseUnpackChunk_writes : ChunkWrites header fast st ch (sparseUnpackChunk junk header fast st)
    (chunkWrite header.blkSz fd st.offsetIn ch st.fill) := by
  by_cases raw : ch.chunkType = CHUNK_TYPE_RAW
  · exact sparseUnpackChunk_rawWrites first plainOut room raw
  · by_cases dontcare : ch.chunkType = CHUNK_TYPE_DONT_CARE
    · exact sparseUnpackChunk_dontcareWrites first plainOut room dontcare
    · by_cases fill : ch.chunkType = CHUNK_TYPE_FILL
      · exact sparseUnpackChunk_fillWrites first plainOut room fill
      · rw [chunkWrite, if_neg raw, if_neg dontcare, if_neg fill]
        by_cases crc : ch.chunkType = CHUNK_TYPE_CRC32
        · rw [if_pos crc]
          have size : unpackedSize header.blkSz ch = 0 := by simp [unpackedSize, crc]
          refine ⟨⟨fd, st.fdout, st.offsetIn + ch.totalSz, st.offsetOut + unpackedSize header.blkSz ch, st.fill⟩, ?_, rfl,
            rfl, rfl, rfl, plainOut, size.symm, by simp⟩
          simp [sparseUnpackChunk, first, crc, size]
        · rw [if_neg crc, ChunkWrites]
          simp [sparseUnpackChunk, first, raw, dontcare, fill, crc]

theorem sparseUnpackChunk_some {next : SparseUnpack} (step : sparseUnpackChunk junk header fast st = some next) :
    ∃ written, chunkWrite header.blkSz fd st.offsetIn ch st.fill = some written ∧
      ChunkDone header fast st ch written next := by
  have writes := @sparseUnpackChunk_writes junk header fast st ch fd first plainOut room
  rw [step] at writes
  cases result : chunkWrite header.blkSz fd st.offsetIn ch st.fill with
  | none =>
    rw [result] at writes
    cases writes
  | some written =>
    rw [result] at writes
    obtain ⟨other, same, done⟩ := writes
    cases same
    exact ⟨written, rfl, done⟩

theorem chunkWrite_step {written : Fd × List Byte × List Byte}
    (result : chunkWrite header.blkSz fd st.offsetIn ch st.fill = some written) :
    ∃ next, sparseUnpackChunk junk header fast st = some next ∧ ChunkDone header fast st ch written next := by
  have writes := @sparseUnpackChunk_writes junk header fast st ch fd first plainOut room
  rw [result] at writes
  exact writes

end Kinds

theorem chunkWrite_dontcare {blkSz offset : Nat} {fill : List Byte} {written : Fd × List Byte × List Byte}
    (dontcare : ch.chunkType = CHUNK_TYPE_DONT_CARE) (result : chunkWrite blkSz fd offset ch fill = some written) :
    written.2.1 = List.replicate (unpackedSize blkSz ch) 0#8 := by
  rw [chunkWrite, if_neg (by rw [dontcare]; exact dontcare_ne_raw), if_pos dontcare] at result
  rw [← Option.some.inj result]

theorem chunkWrite_other {blkSz offset : Nat} (other : ch.chunkType ≠ CHUNK_TYPE_FILL) (fill fill' : List Byte) :
    chunkWrite blkSz fd offset ch fill' =
      (chunkWrite blkSz fd offset ch fill).map fun written => (written.1, written.2.1, fill') := by
  unfold chunkWrite
  split
  · dsimp only
    split <;> rfl
  · split
    · rfl
    · split <;> rfl

theorem chunkWrite_keeps {blkSz offset : Nat} {fill : List Byte} {written : Fd × List Byte × List Byte}
    (other : ch.chunkType ≠ CHUNK_TYPE_FILL) (result : chunkWrite blkSz fd offset ch fill = some written) :
    written.2.2 = fill := by
  have kept : chunkWrite blkSz fd offset ch fill = _ := chunkWrite_other other fill fill
  rw [result, Option.map_some, Option.some.injEq] at kept
  rw [kept]

theorem chunkWrite_fill {blkSz offset : Nat} (kind : ch.chunkType = CHUNK_TYPE_FILL) (fill : List Byte) :
    chunkWrite blkSz fd offset ch fill = if ch.totalSz ≠ 16 then none else some ((readFill fd fill).2,
      (chunkBufferFill (List.replicate (unpackedSize blkSz ch) 0#8) (readFill fd fill).1).1, (readFill fd fill).1) := by
  rw [chunkWrite, if_neg (by rw [kind]; exact fill_ne_raw), if_neg (by rw [kind]; exact fill_ne_dontcare), if_pos kind]

theorem chunkWrite_file {blkSz offset : Nat} {fill : List Byte} {written : Fd × List Byte × List Byte}
    (result : chunkWrite blkSz fd offset ch fill = some written) : written.1.file = fd.file := by
  unfold chunkWrite at result
  split at result
  · dsimp only at result
    split at result
    · cases result
    · rw [← Option.some.inj result]
      exact Fd.fileseek_file _ _
  · split at result
    · rw [← Option.some.inj result]
    · split at result
      · split at result
        · cases result
        · rw [← Option.some.inj result]
      · split at result
        · rw [← Option.some.inj result]
        · cases result

/-- What is read and whether the chunk is right do not depend on the fill word. -/
theorem chunkWrite_success {blkSz offset : Nat} {fill fill₁ bytes : List Byte} {fd₁ : Fd}
    (written : chunkWrite blkSz fd offset ch fill = some (fd₁, bytes, fill₁)) (fill' : List Byte) :
    ∃ bytes' fill₂, chunkWrite blkSz fd offset ch fill' = some (fd₁, bytes', fill₂) := by
  by_cases kind : ch.chunkType = CHUNK_TYPE_FILL
  · rw [chunkWrite_fill kind] at written
    split at written
    · cases written
    · rename_i wide
      cases written
      exact ⟨_, _, by rw [chunkWrite_fill kind, if_neg wide]; rfl⟩
  · exact ⟨bytes, fill', by rw [chunkWrite_other kind fill, written]; rfl⟩

theorem chunkBufferFill_short {n : Nat} (short : n < 4) (fill fill' : List Byte) :
    (chunkBufferFill (List.replicate n 0#8) fill).1 = (chunkBufferFill (List.replicate n 0#8) fill').1 := by
  apply List.map_congr_left
  intro j member
  rw [List.mem_range, List.length_replicate] at member
  rw [List.length_replicate, if_neg (by omega), if_neg (by omega)]

end Chunk

/-- The fill word of the first chunk that has one is in the file, or the chunk is too short for a word. -/
def FirstFillRead (f : File) (blkSz : Nat) : Nat → List ChunkHeader → Prop
  | _, [] => True
  | offset, ch :: rest =>
    if ch.chunkType = CHUNK_TYPE_FILL then offset + 16 ≤ f.size ∨ unpackedSize blkSz ch < 4
    else FirstFillRead f blkSz (offset + ch.totalSz) rest

/-- A sparse image of a size that files have, raw and unpacked. -/
structure FastInput (fd : Fd) (head : SparseHeader) (chunks : List ChunkHeader) : Prop where
  limit : fd.file.size < 2 ^ 63
  stored : SparseChunksAt fd.file head.fileHdrSz chunks
  count : chunks.length = head.totalChunks
  room : (chunks.map (unpackedSize head.blkSz)).sum < 2 ^ 63

/-- Where the command works without `--fast`, it works with it, and only zeros at the end are missing, whatever the
uninitialized memory of both runs holds. -/
def FastRight (fd : Fd) (head : SparseHeader) : Prop :=
  ∀ junk junk' fill fill' fdout, fill.length = 4 → fill'.length = 4 →
    sparseUnpack2fd junk fill head false fd Fd.created = some fdout →
    ∃ fdout', sparseUnpack2fd junk' fill' head true fd Fd.created = some fdout' ∧
      fdout'.file.content <+: fdout.file.content ∧
      ∀ c ∈ fdout.file.content.drop fdout'.file.content.length, c = 0#8

section Runs

variable {junk junk' : Nat → Byte} {header : SparseHeader} {st st' : SparseUnpack}

/-- Two runs at the same place of the image. -/
structure Alike (st st' : SparseUnpack) : Prop where
  fd : st'.fd = st.fd
  offsetIn : st'.offsetIn = st.offsetIn
  offsetOut : st'.offsetOut = st.offsetOut
  start : st.fdout.start = 0
  start' : st'.fdout.start = 0

/-- A run with `--fast` beside one without. -/
structure FastRun (st st' : SparseUnpack) : Prop extends Alike st st' where
  size : st.fdout.file.size ≤ st.offsetOut
  tail : st.fdout.file.ZeroTail st'.fdout.file

theorem Alike.reads (alike : Alike st st') {read : Option ChunkHeader × Fd}
    (first : readChunkHeader st.fd st.offsetIn = read) : readChunkHeader st'.fd st'.offsetIn = read := by
  rw [alike.fd, alike.offsetIn, first]

theorem Alike.next {ch : ChunkHeader} {fast fast' : Bool} {next next' : SparseUnpack}
    {written written' : Fd × List Byte × List Byte} (alike : Alike st st') (done : ChunkDone header fast st ch written next)
    (done' : ChunkDone header fast' st' ch written' next') (same : written'.1 = written.1) : Alike next next' where
  fd := by rw [done'.fd, done.fd, same]
  offsetIn := by rw [done'.offsetIn, done.offsetIn, alike.offsetIn]
  offsetOut := by rw [done'.offsetOut, done.offsetOut, alike.offsetOut]
  start := done.start
  start' := done'.start

/-- A chunk that writes the same bytes in both runs. -/
theorem FastRun.next {ch : ChunkHeader} {next next' : SparseUnpack} {written written' : Fd × List Byte × List Byte}
    (run : FastRun st st') (done : ChunkDone header false st ch written next)
    (done' : ChunkDone header true st' ch written' next') (same : written'.1 = written.1)
    (bytes : written'.2.1 = written.2.1) (zeros : ch.chunkType = CHUNK_TYPE_DONT_CARE →
      written.2.1 = List.replicate (unpackedSize header.blkSz ch) 0#8) : FastRun next next' := by
  have file : next.fdout.file = st.fdout.file.writeAt st.offsetOut written.2.1 := by
    rw [done.file, if_neg fun skips => nomatch skips.1]
  refine ⟨run.toAlike.next done done' same, ?_, ?_⟩
  · have size := File.writeAt_size_le st.fdout.file st.offsetOut written.2.1
    have before := run.size
    rw [file, done.offsetOut, ← done.length]
    omega
  · rw [file, done'.file]
    by_cases dontcare : ch.chunkType = CHUNK_TYPE_DONT_CARE
    · rw [if_pos ⟨rfl, dontcare⟩, zeros dontcare]
      exact run.tail.zeros run.size _
    · rw [if_neg fun skips => dontcare skips.2, run.offsetOut, bytes]
      exact run.tail.write _ _

section Chunks

variable {f : File} {offset : Nat} {chunks : List ChunkHeader}

theorem readChunkHeader_stored {ch : ChunkHeader} (reading : st.fd.file = f) (here : st.offsetIn = offset)
    (limit : f.size < 2 ^ 63) (inside : offset + 12 ≤ f.size) (read : ChunkHeader.decode (f.slice offset 12) = ch) :
    readChunkHeader st.fd st.offsetIn = (some ch, ⟨f, st.fd.start, offset + 12⟩) := by
  subst reading here
  rw [readChunkHeader_slice st.fd st.offsetIn inside (by omega), read]

theorem storedFill_length {fill : List Byte} (width : fill.length = 4) : (storedFill f offset fill).length = 4 := by
  have short : (f.readAt (offset + 12) 4).length ≤ 4 := by
    rw [File.readAt_length]
    exact Nat.min_le_left _ _
  rw [storedFill, List.length_append, List.length_drop]
  omega

/-- A chunk writes the same for two fill words, if they are the same or its own is read before it is used. -/
theorem chunkWrite_same {blkSz start : Nat} {ch : ChunkHeader} {fill fill' : List Byte}
    {written : Fd × List Byte × List Byte} (width : fill.length = 4) (width' : fill'.length = 4)
    (following : SparseChunksAt f (offset + ch.totalSz) chunks)
    (fits : fill' = fill ∨ FirstFillRead f blkSz offset (ch :: chunks))
    (result : chunkWrite blkSz ⟨f, start, offset + 12⟩ offset ch fill = some written) :
    ∃ fill₂, chunkWrite blkSz ⟨f, start, offset + 12⟩ offset ch fill' = some (written.1, written.2.1, fill₂) ∧
      written.2.2.length = 4 ∧ fill₂.length = 4 ∧
      (fill₂ = written.2.2 ∨ FirstFillRead f blkSz (offset + ch.totalSz) chunks) := by
  by_cases kind : ch.chunkType = CHUNK_TYPE_FILL
  · rw [chunkWrite_fill kind] at result ⊢
    split at result
    · cases result
    · rename_i wide
      cases result
      rw [if_neg wide]
      have word (fill : List Byte) : (readFill ⟨f, start, offset + 12⟩ fill).1 = storedFill f offset fill := rfl
      simp only [word]
      by_cases same : storedFill f offset fill' = storedFill f offset fill
      · exact ⟨_, by rw [same]; rfl, storedFill_length width, storedFill_length width, .inl rfl⟩
      · have other : ¬ fill' = fill := fun equal => same (congrArg _ equal)
        have read := fits.resolve_left other
        rw [FirstFillRead, if_pos kind] at read
        have cut : ¬ offset + 16 ≤ f.size := by
          intro stored
          rw [storedFill_full stored fill width, storedFill_full stored fill' width'] at same
          exact same rfl
        have short := read.resolve_left cut
        refine ⟨_, by rw [chunkBufferFill_short short _ (storedFill f offset fill)]; rfl, storedFill_length width,
          storedFill_length width', .inr ?_⟩
        cases chunks with
        | nil => trivial
        | cons next rest =>
          have inside := following.1
          omega
  · have word := chunkWrite_keeps kind result
    refine ⟨fill', by rw [chunkWrite_other kind fill, result]; rfl, by rw [word, width], width', ?_⟩
    rw [word]
    rw [FirstFillRead, if_neg kind] at fits
    exact fits

/-- A run that works does so with every fill word. -/
theorem Alike.run {fast fast' : Bool} {done : SparseUnpack} (alike : Alike st st') (reading : st.fd.file = f)
    (here : st.offsetIn = offset) (limit : f.size < 2 ^ 63) (stored : SparseChunksAt f offset chunks)
    (room : st.offsetOut + (chunks.map (unpackedSize header.blkSz)).sum < 2 ^ 63)
    (run : sparseUnpackLoop junk header fast chunks.length st = some done) :
    ∃ done', sparseUnpackLoop junk' header fast' chunks.length st' = some done' := by
  induction chunks generalizing st st' offset with
  | nil => exact ⟨st', rfl⟩
  | cons ch rest ih =>
    obtain ⟨inside, read, following⟩ := stored
    rw [List.map_cons, List.sum_cons] at room
    have first := readChunkHeader_stored reading here limit inside read
    have first' := alike.reads first
    obtain ⟨next, step, more⟩ := Option.bind_eq_some_iff.mp run
    obtain ⟨written, result, made⟩ := sparseUnpackChunk_some first alike.start (by omega) step
    obtain ⟨bytes', fill₂, result'⟩ := chunkWrite_success result st'.fill
    rw [← alike.offsetIn] at result'
    obtain ⟨next', step', made'⟩ := @chunkWrite_step junk' header fast' st' ch _ first' alike.start'
      (by rw [alike.offsetOut]; omega) _ result'
    obtain ⟨done', run'⟩ := ih (alike.next made made' rfl) (by rw [made.fd, chunkWrite_file result])
      (by rw [made.offsetIn, here]) following (by rw [made.offsetOut]; omega) more
    exact ⟨done', by rw [List.length_cons, sparseUnpackLoop, step', Option.bind_some, run']⟩

/-- The two runs write the same but for zeros, as long as they agree on the fill word when it is used. -/
theorem FastRun.run {done : SparseUnpack} (both : FastRun st st') (reading : st.fd.file = f)
    (here : st.offsetIn = offset) (limit : f.size < 2 ^ 63) (width : st.fill.length = 4) (width' : st'.fill.length = 4)
    (stored : SparseChunksAt f offset chunks)
    (fits : st'.fill = st.fill ∨ FirstFillRead f header.blkSz offset chunks)
    (room : st.offsetOut + (chunks.map (unpackedSize header.blkSz)).sum < 2 ^ 63)
    (run : sparseUnpackLoop junk header false chunks.length st = some done) :
    ∃ done', sparseUnpackLoop junk' header true chunks.length st' = some done' ∧ FastRun done done' := by
  induction chunks generalizing st st' offset with
  | nil =>
    cases run
    exact ⟨st', rfl, both⟩
  | cons ch rest ih =>
    subst here
    obtain ⟨inside, read, following⟩ := stored
    rw [List.map_cons, List.sum_cons] at room
    have first := readChunkHeader_stored reading rfl limit inside read
    have first' := both.reads first
    obtain ⟨next, step, more⟩ := Option.bind_eq_some_iff.mp run
    obtain ⟨written, result, made⟩ := sparseUnpackChunk_some first both.start (by omega) step
    obtain ⟨fill₂, result', length, length', fits⟩ := chunkWrite_same width width' following fits result
    rw [← both.offsetIn] at first' result'
    have room' : st'.offsetOut < 2 ^ 63 := by
      rw [both.offsetOut]
      omega
    obtain ⟨next', step', made'⟩ := @chunkWrite_step junk' header true st' ch _ first' both.start' room'
      (written.1, written.2.1, fill₂) result'
    have both' := both.next made made' rfl rfl fun dontcare => chunkWrite_dontcare dontcare result
    obtain ⟨done', run', runs⟩ := ih both' (by rw [made.fd, chunkWrite_file result]) made.offsetIn
      (by rw [made.fill, length]) (by rw [made'.fill, length']) following (by rwa [made.fill, made'.fill])
      (by rw [made.offsetOut]; omega) more
    exact ⟨done', by rw [List.length_cons, sparseUnpackLoop, step', Option.bind_some, run'], runs⟩

theorem chunkBufferFill_getD {n k : Nat} (word : 4 ≤ n) (small : k < 4) (fill : List Byte) :
    (chunkBufferFill (List.replicate n 0#8) fill).1.getD k 0#8 = fill.getD k 0#8 := by
  have inside : k < (List.range (List.replicate n 0#8).length).length := by
    rw [List.length_range, List.length_replicate]
    omega
  rw [chunkBufferFill, List.getD_eq_getElem?_getD, List.getElem?_map, List.getElem?_eq_getElem inside, List.getElem_range,
    Option.map_some, Option.getD_some, List.length_replicate, if_pos (by omega), Nat.mod_eq_of_lt small]

/-- A fill word that is used and not read shows in the difference of the two runs. -/
theorem FastRun.shows {ch : ChunkHeader} {fd : Fd} {next next' : SparseUnpack}
    {written written' : Fd × List Byte × List Byte}
    (both : FastRun st st') (at_ : fd.file = f ∧ fd.pos = offset + 12) (zeros : st.fill = List.replicate 4 0#8)
    (ones : st'.fill = List.replicate 4 1#8) (kind : ch.chunkType = CHUNK_TYPE_FILL)
    (result : chunkWrite header.blkSz fd offset ch st.fill = some written)
    (result' : chunkWrite header.blkSz fd offset ch st'.fill = some written')
    (made : ChunkDone header false st ch written next) (made' : ChunkDone header true st' ch written' next')
    (cut : ¬ offset + 16 ≤ f.size) (long : 4 ≤ unpackedSize header.blkSz ch) :
    ¬ next.fdout.file.ZeroTail next'.fdout.file := by
  intro tail
  obtain ⟨rfl, pos⟩ := at_
  obtain ⟨k, small, word⟩ := storedFill_cut cut
  have fills (fill : List Byte) : (readFill fd fill).1 = storedFill fd.file offset fill := by
    rw [storedFill, ← pos]
    rfl
  have plain : ¬ ch.chunkType = CHUNK_TYPE_DONT_CARE := by
    rw [kind]
    exact fill_ne_dontcare
  have length := made.length
  have length' := made'.length
  rw [chunkWrite_fill kind] at result result'
  split at result
  · cases result
  · rename_i wide
    rw [if_neg wide] at result'
    have byte := tail.byte (st.offsetOut + k)
    rw [made.file, made'.file, if_neg fun skips => plain skips.2, if_neg fun skips => plain skips.2, both.offsetOut,
      File.writeAt_byte_inside _ _ _ _ (by omega) (by omega), File.writeAt_byte_inside _ _ _ _ (by omega) (by omega),
      Nat.add_sub_cancel_left, ← Option.some.inj result, ← Option.some.inj result', chunkBufferFill_getD long small,
      chunkBufferFill_getD long small, fills, fills, word, word, zeros, ones] at byte
    interval_cases k <;> exact absurd byte (by decide)

theorem FastRun.firstFill {done done' : SparseUnpack} (both : FastRun st st') (reading : st.fd.file = f)
    (here : st.offsetIn = offset) (limit : f.size < 2 ^ 63) (zeros : st.fill = List.replicate 4 0#8)
    (ones : st'.fill = List.replicate 4 1#8) (stored : SparseChunksAt f offset chunks)
    (room : st.offsetOut + (chunks.map (unpackedSize header.blkSz)).sum < 2 ^ 63)
    (run : sparseUnpackLoop junk header false chunks.length st = some done)
    (run' : sparseUnpackLoop junk' header true chunks.length st' = some done')
    (tail : done.fdout.file.ZeroTail done'.fdout.file) : FirstFillRead f header.blkSz offset chunks := by
  induction chunks generalizing st st' offset with
  | nil => trivial
  | cons ch rest ih =>
    subst here
    obtain ⟨inside, read, following⟩ := stored
    rw [List.map_cons, List.sum_cons] at room
    have first := readChunkHeader_stored reading rfl limit inside read
    have first' := both.reads first
    have room' : st'.offsetOut < 2 ^ 63 := by
      rw [both.offsetOut]
      omega
    obtain ⟨next, step, more⟩ := Option.bind_eq_some_iff.mp run
    obtain ⟨written, result, made⟩ := sparseUnpackChunk_some first both.start (by omega) step
    obtain ⟨next', step', more'⟩ := Option.bind_eq_some_iff.mp run'
    obtain ⟨written', result', made'⟩ := sparseUnpackChunk_some first' both.start' room' step'
    rw [both.offsetIn] at result'
    rw [FirstFillRead]
    by_cases kind : ch.chunkType = CHUNK_TYPE_FILL
    · rw [if_pos kind]
      by_contra wrong
      have ⟨cut, long⟩ := not_or.mp wrong
      have last : rest = [] := by
        have wide : ch.totalSz = 16 := by
          by_contra wide
          rw [chunkWrite_fill kind, if_pos wide] at result
          cases result
        cases rest with
        | nil => rfl
        | cons other others =>
          have beyond := following.1
          omega
      subst last
      cases more
      cases more'
      exact both.shows ⟨rfl, rfl⟩ zeros ones kind result result' made made' cut (by omega) tail
    · rw [if_neg kind]
      have word := chunkWrite_keeps kind result
      have word' := chunkWrite_keeps kind result'
      rw [chunkWrite_other kind st.fill, result] at result'
      have same := (Option.some.inj result').symm
      have both' := both.next made made' (by rw [same]) (by rw [same]) fun dontcare => chunkWrite_dontcare dontcare result
      exact ih both' (by rw [made.fd, chunkWrite_file result]) made.offsetIn (by rw [made.fill, word, zeros])
        (by rw [made'.fill, word', ones]) following (by rw [made.offsetOut]; omega) more more'

end Chunks

end Runs

section Fast

variable {fd : Fd} {head : SparseHeader} {chunks : List ChunkHeader}

theorem fastRun_start (fd : Fd) (offset : Nat) (fill fill' : List Byte) :
    FastRun ⟨fd, Fd.created, offset, 0, fill⟩ ⟨fd, Fd.created, offset, 0, fill'⟩ :=
  ⟨⟨rfl, rfl, rfl, rfl, rfl⟩, le_refl 0, .refl _⟩

theorem FastInput.firstFill (input : FastInput fd head chunks)
    (works : ∃ junk fill fdout, fill.length = 4 ∧ sparseUnpack2fd junk fill head false fd Fd.created = some fdout)
    (right : FastRight fd head) : FirstFillRead fd.file head.blkSz head.fileHdrSz chunks := by
  have room := input.room
  obtain ⟨junk, fill, fdout, _, run⟩ := works
  rw [sparseUnpack2fd, ← input.count] at run
  obtain ⟨done, loop, _⟩ := Option.map_eq_some_iff.mp run
  obtain ⟨zeros, loop'⟩ := @Alike.run junk junk head _ ⟨fd, Fd.created, head.fileHdrSz, 0, List.replicate 4 0#8⟩
    fd.file head.fileHdrSz chunks false false done (fastRun_start fd head.fileHdrSz fill (List.replicate 4 0#8)).toAlike rfl rfl
    input.limit input.stored (by simp only; omega) loop
  obtain ⟨ones, run', front, tail⟩ := right junk junk (List.replicate 4 0#8) (List.replicate 4 1#8) zeros.fdout rfl rfl
    (by rw [sparseUnpack2fd, ← input.count, loop']; rfl)
  rw [sparseUnpack2fd, ← input.count] at run'
  obtain ⟨done', loop'', rfl⟩ := Option.map_eq_some_iff.mp run'
  exact (fastRun_start fd head.fileHdrSz _ _).firstFill rfl rfl input.limit rfl rfl input.stored (by simp only; omega) loop'
    loop'' (File.zeroTail_iff.mpr ⟨front, tail⟩)

/-- The outputs with and without `--fast` agree up to zeros at the end exactly if the first fill word that is used can be
read. -/
theorem sparseUnpack2fd_fast_iff (input : FastInput fd head chunks)
    (works : ∃ junk fill fdout, fill.length = 4 ∧ sparseUnpack2fd junk fill head false fd Fd.created = some fdout) :
    FastRight fd head ↔ FirstFillRead fd.file head.blkSz head.fileHdrSz chunks := by
  constructor
  · exact input.firstFill works
  · intro fits junk junk' fill fill' fdout width width' run
    have room := input.room
    rw [sparseUnpack2fd, ← input.count] at run ⊢
    obtain ⟨done, loop, rfl⟩ := Option.map_eq_some_iff.mp run
    obtain ⟨done', loop', both⟩ := (fastRun_start fd head.fileHdrSz fill fill').run rfl rfl input.limit width width'
      input.stored (.inr fits) (by simp only; omega) loop
    exact ⟨done'.fdout, by rw [loop']; rfl, File.zeroTail_iff.mp both.tail⟩

end Fast

theorem sparseUnpack2fd_fast_hole : FastRight (holeImage 4 2) (holeHeader 4 2) := by
  have input := holeImage_input 4 2 (by decide) (by decide) (by decide)
  obtain ⟨⟨fdout, run, _⟩, _⟩ := input.runs (by simp) (holeImage_unpackable 4 2) (fun _ => 0#8) (List.replicate 4 0#8)
    (List.replicate 4 0#8) (by simp [holeHeader])
  have fits : FirstFillRead (holeImage 4 2).file 4 28 [⟨CHUNK_TYPE_DONT_CARE, 0, 2, 12⟩] := by simp [FirstFillRead]
  exact (sparseUnpack2fd_fast_iff ⟨input.limit, input.stored, input.count, input.room⟩ ⟨_, _, _, rfl, run⟩).mpr fits

/-- An image of one block of 4 bytes that ends where the fill word should be. -/
def cutImage : Fd := ⟨File.ofBytes ((holeHeader 4 1).encode ++ ChunkHeader.encode ⟨CHUNK_TYPE_FILL, 0, 1, 16⟩), 0, 0⟩

theorem cutImage_input : FastInput cutImage (holeHeader 4 1) [⟨CHUNK_TYPE_FILL, 0, 1, 16⟩] where
  limit := by simp [cutImage]
  stored := by
    have chunk := File.ofBytes_slice_right (holeHeader 4 1).encode (ChunkHeader.encode ⟨CHUNK_TYPE_FILL, 0, 1, 16⟩)
    rw [SparseHeader.encode_length, ChunkHeader.encode_length] at chunk
    refine ⟨by simp [cutImage, holeHeader], ?_, trivial⟩
    simp only [cutImage, holeHeader] at chunk ⊢
    rw [chunk, ChunkHeader.decode_encode]
    rfl
  count := rfl
  room := by decide

theorem cutImage_works : ∃ junk fill fdout, fill.length = 4 ∧
    sparseUnpack2fd junk fill (holeHeader 4 1) false cutImage Fd.created = some fdout := by
  have input := cutImage_input
  obtain ⟨inside, read, _⟩ := input.stored
  have first := @readChunkHeader_stored ⟨cutImage, Fd.created, 28, 0, List.replicate 4 0#8⟩ _ 28 _ rfl rfl input.limit inside
    read
  obtain ⟨next, step, _⟩ := @chunkWrite_step (fun _ => 0#8) (holeHeader 4 1) false
    ⟨cutImage, Fd.created, 28, 0, List.replicate 4 0#8⟩ _ _ first rfl (by decide) _
    (by rw [chunkWrite_fill rfl, if_neg (by decide)])
  refine ⟨fun _ => 0#8, List.replicate 4 0#8, next.fdout, rfl, ?_⟩
  have one : (holeHeader 4 1).totalChunks = 1 := rfl
  have start : (holeHeader 4 1).fileHdrSz = 28 := rfl
  rw [sparseUnpack2fd, one, start, sparseUnpackLoop, step]
  rfl

/-- The fill word of the two runs is what their memory held. -/
theorem sparseUnpack2fd_fast_cut : ¬ FastRight cutImage (holeHeader 4 1) := by
  intro right
  have read := cutImage_input.firstFill cutImage_works right
  rw [FirstFillRead, if_pos rfl] at read
  cases read with
  | inl stored =>
    have size : cutImage.file.size = 40 := by simp [cutImage, holeHeader]
    rw [size] at stored
    exact absurd stored (by decide)
  | inr short => exact absurd short (by decide)

end ImgEditor
