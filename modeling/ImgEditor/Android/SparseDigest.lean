import ImgEditor.Android.SparseStream
import Mathlib.Algebra.Order.BigOperators.Group.List
import Mathlib.Tactic.IntervalCases

namespace ImgEditor

open Storage

def Unpackable (f : File) (blkSz : Nat) : Nat → List ChunkHeader → Prop
  | _, [] => True
  | offset, ch :: rest => ChunkOk f blkSz offset ch ∧ Unpackable f blkSz (offset + ch.totalSz) rest

theorem Unpackable.known {f : File} {blkSz offset : Nat} {chunks : List ChunkHeader}
    (ok : Unpackable f blkSz offset chunks) : ∀ ch ∈ chunks, ch.chunkType ∈
      [CHUNK_TYPE_RAW, CHUNK_TYPE_FILL, CHUNK_TYPE_DONT_CARE, CHUNK_TYPE_CRC32] := by
  induction chunks generalizing offset with
  | nil => simp
  | cons c rest ih =>
    intro ch member
    rcases List.mem_cons.mp member with rfl | member
    · exact ok.1.1
    · exact ih ok.2 ch member

section Loops

variable (junk : Nat → Byte) (header : SparseHeader) {f : File} {offset : Nat} {chunks : List ChunkHeader}

theorem sparseUnpackLoop_unpackable {st done : SparseUnpack} (reading : st.fd.file = f)
    (plain : st.fd.start = 0) (plainOut : st.fdout.start = 0) (here : st.offsetIn = offset)
    (limit : f.size < 2^63) (aligned : header.blkSz % 4 = 0) (stored : SparseChunksAt f offset chunks)
    (room : st.offsetOut + (chunks.map (unpackedSize header.blkSz)).sum < 2^63)
    (run : sparseUnpackLoop junk header false chunks.length st = some done) :
    Unpackable f header.blkSz offset chunks := by
  induction chunks generalizing st offset with
  | nil => trivial
  | cons ch rest ih =>
    obtain ⟨inside, read, following⟩ := stored
    rw [List.map_cons, List.sum_cons] at room
    simp only [List.length_cons, sparseUnpackLoop] at run
    obtain ⟨next, step, more⟩ := Option.bind_eq_some_iff.mp run
    have ok := sparseUnpackChunk_checks junk header reading plain here inside limit read step
    obtain ⟨pos, fdout, content, plainOut', _⟩ := sparseUnpackChunk_content junk header st reading plain
      plainOut here inside limit (by omega) aligned read ok
    obtain rfl := Option.some.inj (step.symm.trans content)
    exact ⟨ok, ih rfl rfl plainOut' rfl following (by simp only; omega) more⟩

theorem sparseUnpackLoop_stream (st : SparseUnpack) (reading : st.fd.file = f) (plain : st.fd.start = 0)
    (plainOut : st.fdout.start = 0) (here : st.offsetIn = offset) (limit : f.size < 2^63)
    (aligned : header.blkSz % 4 = 0) (stored : SparseChunksAt f offset chunks)
    (ok : Unpackable f header.blkSz offset chunks)
    (room : st.offsetOut + (chunks.map (unpackedSize header.blkSz)).sum < 2^63) :
    ∃ done, sparseUnpackLoop junk header false chunks.length st = some done ∧
      done.fdout.file = st.fdout.file.writeAt st.offsetOut
        (chunkStream (unpackedSize header.blkSz) f offset st.fill chunks) := by
  induction chunks generalizing st offset with
  | nil => exact ⟨st, rfl, by simp [chunkStream]⟩
  | cons ch rest ih =>
    obtain ⟨inside, read, following⟩ := stored
    obtain ⟨good, others⟩ := ok
    rw [List.map_cons, List.sum_cons] at room
    obtain ⟨pos, fdout, step, plainOut', file⟩ := sparseUnpackChunk_content junk header st reading plain
      plainOut here inside limit (by omega) aligned read good
    have length := chunkContent_length f offset (nextFill f offset st.fill ch) ch
      (unpackedSize header.blkSz ch) good.1 (fun crc => by simp [unpackedSize, crc])
    obtain ⟨done, run, result⟩ := ih
      ⟨⟨f, 0, pos⟩, fdout, offset + ch.totalSz, st.offsetOut + unpackedSize header.blkSz ch,
        nextFill f offset st.fill ch⟩ rfl rfl plainOut' rfl following others (by simp only; omega)
    refine ⟨done, by simp [sparseUnpackLoop, step, run], ?_⟩
    have joined := File.writeAt_append st.fdout.file st.offsetOut
      (chunkContent f offset (nextFill f offset st.fill ch) ch (unpackedSize header.blkSz ch))
      (chunkStream (unpackedSize header.blkSz) f (offset + ch.totalSz) (nextFill f offset st.fill ch) rest)
    rw [length] at joined
    rw [result, file, chunkStream]
    exact joined

theorem sparseSha1sumLoop_stream (st : SparseSha1sum) (reading : st.fd.file = f) (plain : st.fd.start = 0)
    (here : st.offset = offset) (limit : f.size < 2^63) (width : st.blkbuf.length = header.blkSz)
    (aligned : header.blkSz % 4 = 0) (stored : SparseChunksAt f offset chunks)
    (ok : Unpackable f header.blkSz offset chunks)
    (covered : ∀ ch ∈ chunks, ch.chunkType = CHUNK_TYPE_RAW →
      ch.chunkSz * header.blkSz ≤ unpackedSize header.blkSz ch) :
    ∃ done, sparseSha1sumLoop junk header chunks.length st = some done ∧
      done.hash = st.hash ++ chunkStream (hashedSize header.blkSz) f offset st.fill chunks := by
  induction chunks generalizing st offset with
  | nil => exact ⟨st, rfl, by simp [chunkStream]⟩
  | cons ch rest ih =>
    obtain ⟨inside, read, following⟩ := stored
    obtain ⟨good, others⟩ := ok
    obtain ⟨pos, blkbuf, step, width'⟩ := sparseSha1sumChunk_content junk header st reading plain here inside
      limit width aligned read good (covered ch (by simp))
    obtain ⟨done, run, result⟩ := ih
      ⟨⟨f, 0, pos⟩, offset + ch.totalSz,
        st.hash ++ chunkContent f offset (nextFill f offset st.fill ch) ch (hashedSize header.blkSz ch),
        blkbuf, nextFill f offset st.fill ch⟩ rfl rfl rfl width' following others
      (fun c member => covered c (List.mem_cons_of_mem _ member))
    refine ⟨done, by simp [sparseSha1sumLoop, step, run], ?_⟩
    rw [result, chunkStream, List.append_assoc]

end Loops

def FillsStored (f : File) (blkSz : Nat) : Nat → Bool → List ChunkHeader → Prop
  | _, _, [] => True
  | offset, seen, ch :: rest =>
    (ch.chunkType = CHUNK_TYPE_FILL → offset + 16 ≤ f.size ∨ seen = true ∨ ch.chunkSz * blkSz = 0) ∧
      FillsStored f blkSz (offset + ch.totalSz) (seen || ch.chunkType == CHUNK_TYPE_FILL) rest

/-- When both commands see the same bytes. -/
structure DigestSafe (f : File) (head : SparseHeader) (chunks : List ChunkHeader) : Prop where
  header : (∃ ch ∈ chunks, ch.chunkType = CHUNK_TYPE_RAW) → head.chunkHdrSz = 12
  product : ∀ ch ∈ chunks, ch.chunkType = CHUNK_TYPE_DONT_CARE ∨ ch.chunkType = CHUNK_TYPE_FILL →
    ch.chunkSz * head.blkSz < 2^32
  fill : FillsStored f head.blkSz head.fileHdrSz false chunks

theorem storedFill_full {f : File} {offset : Nat} (stored : offset + 16 ≤ f.size) (fill : List Byte)
    (width : fill.length = 4) : storedFill f offset fill = f.slice (offset + 12) 4 := by
  unfold storedFill
  rw [f.readAt_full _ _ (by omega), File.slice_length, List.drop_eq_nil_of_le (by omega), List.append_nil]

section Streams

variable {f : File} {blkSz : Nat}

/-- A chunk whose fill word is cut off by the end of the file is the last one. -/
theorem cut_is_last {offset : Nat} {ch : ChunkHeader} {rest : List ChunkHeader}
    (stored : SparseChunksAt f offset (ch :: rest)) (size : ch.totalSz = 16) (cut : ¬ offset + 16 ≤ f.size) :
    rest = [] := by
  obtain ⟨_, _, following⟩ := stored
  cases rest with
  | nil => rfl
  | cons s others =>
    obtain ⟨inside, _⟩ := following
    omega

theorem chunkStream_eq {offset : Nat} {seen : Bool} {chunks : List ChunkHeader} (left right : List Byte)
    (leftWidth : left.length = 4) (rightWidth : right.length = 4) (known : seen = true → left = right)
    (stored : SparseChunksAt f offset chunks) (ok : Unpackable f blkSz offset chunks)
    (sizes : ∀ ch ∈ chunks, unpackedSize blkSz ch = hashedSize blkSz ch)
    (fills : FillsStored f blkSz offset seen chunks) :
    chunkStream (unpackedSize blkSz) f offset left chunks =
      chunkStream (hashedSize blkSz) f offset right chunks := by
  induction chunks generalizing offset seen left right with
  | nil => rfl
  | cons ch rest ih =>
    have last := cut_is_last stored
    obtain ⟨_, _, following⟩ := stored
    obtain ⟨good, others⟩ := ok
    obtain ⟨here, later⟩ := fills
    have size := sizes ch (by simp)
    simp only [chunkStream]
    by_cases fill : ch.chunkType = CHUNK_TYPE_FILL
    · have pattern : ∀ word, chunkContent f offset word ch (hashedSize blkSz ch) =
          fillPattern word (ch.chunkSz * blkSz) := by
        intro word
        simp [chunkContent, hashedSize, fill]
      have seenNow : (seen || ch.chunkType == CHUNK_TYPE_FILL) = true := by simp [fill]
      rw [seenNow] at later
      rw [size, pattern, pattern]
      simp only [nextFill, fill, ↓reduceIte]
      by_cases whole : offset + 16 ≤ f.size
      · rw [storedFill_full whole left leftWidth, storedFill_full whole right rightWidth,
          ih (f.slice (offset + 12) 4) (f.slice (offset + 12) 4) (by simp) (by simp) (fun _ => rfl) following
            others (fun c member => sizes c (List.mem_cons_of_mem _ member)) later]
      · have none := last (good.2.1 fill) whole
        subst none
        rcases here fill with inside | before | empty
        · exact absurd inside whole
        · rw [known before]
          rfl
        · rw [empty]
          simp [fillPattern, chunkStream]
    · have other : (seen || ch.chunkType == CHUNK_TYPE_FILL) = seen := by simp [fill]
      rw [other] at later
      have same : ∀ (word word' : List Byte) count, chunkContent f offset word ch count =
          chunkContent f offset word' ch count := by
        intro word word' count
        simp [chunkContent, fill]
      simp only [nextFill, fill, ↓reduceIte]
      rw [size, same left right, ih left right leftWidth rightWidth known following others
        (fun c member => sizes c (List.mem_cons_of_mem _ member)) later]

theorem chunkStream_length (size : ChunkHeader → Nat) {offset : Nat} {chunks : List ChunkHeader}
    (fill : List Byte) (ok : Unpackable f blkSz offset chunks)
    (none : ∀ ch, ch.chunkType = CHUNK_TYPE_CRC32 → size ch = 0) :
    (chunkStream size f offset fill chunks).length = (chunks.map size).sum := by
  induction chunks generalizing offset fill with
  | nil => rfl
  | cons ch rest ih =>
    obtain ⟨good, others⟩ := ok
    rw [chunkStream, List.length_append, ih _ others,
      chunkContent_length f offset _ ch (size ch) good.1 (none ch), List.map_cons, List.sum_cons]

theorem unpackedSize_crc32 (blkSz : Nat) (ch : ChunkHeader) (crc : ch.chunkType = CHUNK_TYPE_CRC32) :
    unpackedSize blkSz ch = 0 := by
  simp [unpackedSize, crc]

theorem hashedSize_crc32 (blkSz : Nat) (ch : ChunkHeader) (crc : ch.chunkType = CHUNK_TYPE_CRC32) :
    hashedSize blkSz ch = 0 := by
  simp [hashedSize, crc]

theorem unpackedSize_le (blkSz : Nat) (ch : ChunkHeader)
    (exact : ch.chunkType = CHUNK_TYPE_RAW → unpackedSize blkSz ch = ch.chunkSz * blkSz) :
    unpackedSize blkSz ch ≤ hashedSize blkSz ch := by
  by_cases raw : ch.chunkType = CHUNK_TYPE_RAW
  · rw [exact raw]
    simp [hashedSize, raw]
  · simp only [unpackedSize, hashedSize, raw, ↓reduceIte]
    split
    · exact Nat.le_refl _
    · exact mul32_le _ _

theorem sizes_of_sum {low high : ChunkHeader → Nat} {chunks : List ChunkHeader}
    (below : ∀ ch ∈ chunks, low ch ≤ high ch) (total : (chunks.map low).sum = (chunks.map high).sum) :
    ∀ ch ∈ chunks, low ch = high ch := by
  induction chunks with
  | nil => simp
  | cons ch rest ih =>
    have head := below ch (by simp)
    have tail : (rest.map low).sum ≤ (rest.map high).sum :=
      List.sum_le_sum fun c member => below c (List.mem_cons_of_mem _ member)
    simp only [List.map_cons, List.sum_cons] at total
    intro c member
    rcases List.mem_cons.mp member with rfl | member
    · omega
    · exact ih (fun c member => below c (List.mem_cons_of_mem _ member)) (by omega) c member

theorem storedFill_cut {offset : Nat} (cut : ¬ offset + 16 ≤ f.size) :
    ∃ n, n < 4 ∧ ∀ fill : List Byte, (storedFill f offset fill).getD n 0#8 = fill.getD n 0#8 := by
  refine ⟨min 4 (f.size - (offset + 12)), by omega, fun fill => ?_⟩
  unfold storedFill
  rw [List.getD_append_right _ _ _ _ (by rw [File.readAt_length]), File.readAt_length, Nat.sub_self]
  simp [List.getD_eq_getElem?_getD]

/-- When two different uninitialized words give the same stream, no fill word was missing. -/
theorem fills_of_stream {offset : Nat} {seen : Bool} {chunks : List ChunkHeader} (left right : List Byte)
    (differ : seen = false → ∀ i, i < 4 → left.getD i 0#8 ≠ right.getD i 0#8)
    (aligned : blkSz % 4 = 0) (stored : SparseChunksAt f offset chunks)
    (ok : Unpackable f blkSz offset chunks)
    (sizes : ∀ ch ∈ chunks, unpackedSize blkSz ch = hashedSize blkSz ch)
    (same : chunkStream (unpackedSize blkSz) f offset left chunks =
      chunkStream (hashedSize blkSz) f offset right chunks) :
    FillsStored f blkSz offset seen chunks := by
  induction chunks generalizing offset seen left right with
  | nil => trivial
  | cons ch rest ih =>
    have last := cut_is_last stored
    obtain ⟨_, _, following⟩ := stored
    obtain ⟨good, others⟩ := ok
    have size := sizes ch (by simp)
    have remaining := fun c member => sizes c (List.mem_cons_of_mem ch member)
    simp only [chunkStream, size] at same
    have lengths : ∀ word, (chunkContent f offset word ch (hashedSize blkSz ch)).length =
        hashedSize blkSz ch :=
      fun word => chunkContent_length f offset word ch _ good.1 (hashedSize_crc32 blkSz ch)
    obtain ⟨first, second⟩ := List.append_inj same (by rw [lengths, lengths])
    by_cases fill : ch.chunkType = CHUNK_TYPE_FILL
    · have seenNow : (seen || ch.chunkType == CHUNK_TYPE_FILL) = true := by simp [fill]
      refine ⟨fun _ => ?_, ?_⟩
      · by_contra missing
        simp only [not_or] at missing
        obtain ⟨cut, unseen, filled⟩ := missing
        obtain ⟨n, small, kept⟩ := storedFill_cut (f := f) cut
        have pattern : ∀ word, chunkContent f offset word ch (hashedSize blkSz ch) =
            fillPattern word (ch.chunkSz * blkSz) := by
          intro word
          simp [chunkContent, hashedSize, fill]
        simp only [pattern, nextFill, fill, ↓reduceIte] at first
        have multiple : ch.chunkSz * blkSz % 4 = 0 := by rw [Nat.mul_mod, aligned, Nat.mul_zero]
        have element := congrArg (fun bytes => bytes.getD n 0#8) first
        have value : ∀ word, (fillPattern word (ch.chunkSz * blkSz)).getD n 0#8 = word.getD n 0#8 := by
          intro word
          have inside : n < ch.chunkSz * blkSz := by omega
          simp only [fillPattern, List.getD_eq_getElem?_getD, List.getElem?_map, List.getElem?_range inside,
            Option.map_some, Option.getD_some, Nat.mod_eq_of_lt small]
        simp only [value, kept] at element
        exact differ (by simpa using unseen) n small element
      · rw [seenNow]
        by_cases whole : offset + 16 ≤ f.size
        · exact ih _ _ (by simp) following others remaining second
        · have none := last (good.2.1 fill) whole
          subst none
          trivial
    · have other : (seen || ch.chunkType == CHUNK_TYPE_FILL) = seen := by simp [fill]
      refine ⟨fun impossible => absurd impossible fill, ?_⟩
      rw [other]
      simp only [nextFill, fill, ↓reduceIte] at second
      exact ih left right differ following others remaining second

theorem totalSz_lt {offset : Nat} {chunks : List ChunkHeader} (stored : SparseChunksAt f offset chunks) :
    ∀ ch ∈ chunks, ch.totalSz < 2^32 := by
  induction chunks generalizing offset with
  | nil => simp
  | cons c rest ih =>
    obtain ⟨_, read, following⟩ := stored
    intro ch member
    rcases List.mem_cons.mp member with rfl | member
    · rw [← read]
      exact leField_lt _ _ 4
    · exact ih following ch member

end Streams

/-- Whenever both commands succeed, the hashed stream is the content of the unpacked file, whatever
    the uninitialized memory of either command held. -/
def DigestAgree (fd : Fd) (head : SparseHeader) : Prop :=
  ∀ junk junk' blkbuf fill fill' fdout stream, blkbuf.length = head.blkSz → fill.length = 4 →
    fill'.length = 4 → sparseUnpack2fd junk fill head false fd Fd.created = some fdout →
    sparseSha1sum junk' blkbuf fill' head fd = some stream → fdout.file.content = stream

/-- A sparse image in a plain file: its chunk list, RAW chunks of the size their header says, blocks
    of whole words, and a raw size that a file can have. -/
structure DigestInput (fd : Fd) (head : SparseHeader) (chunks : List ChunkHeader) : Prop where
  plain : fd.start = 0
  limit : fd.file.size < 2^63
  detected : sparseDetect fd = some head
  stored : SparseChunksAt fd.file head.fileHdrSz chunks
  count : chunks.length = head.totalChunks
  aligned : head.blkSz % 4 = 0
  raw : ∀ ch ∈ chunks, ch.chunkType = CHUNK_TYPE_RAW →
    ch.totalSz = head.chunkHdrSz + ch.chunkSz * head.blkSz
  room : (chunks.map (unpackedSize head.blkSz)).sum < 2^63

section Digest

variable {fd : Fd} {head : SparseHeader} {chunks : List ChunkHeader}

theorem DigestInput.covered (input : DigestInput fd head chunks)
    (header : (∃ ch ∈ chunks, ch.chunkType = CHUNK_TYPE_RAW) → 12 ≤ head.chunkHdrSz) :
    ∀ ch ∈ chunks, ch.chunkType = CHUNK_TYPE_RAW →
      unpackedSize head.blkSz ch = ch.chunkSz * head.blkSz + (head.chunkHdrSz - 12) := by
  intro ch member raw
  have size := input.raw ch member raw
  have bound := totalSz_lt input.stored ch member
  have wide := header ⟨ch, member, raw⟩
  simp only [unpackedSize, raw, ↓reduceIte]
  omega

theorem DigestInput.exact (input : DigestInput fd head chunks)
    (header : (∃ ch ∈ chunks, ch.chunkType = CHUNK_TYPE_RAW) → head.chunkHdrSz = 12) :
    ∀ ch ∈ chunks, ch.chunkType = CHUNK_TYPE_RAW →
      unpackedSize head.blkSz ch = ch.chunkSz * head.blkSz := by
  intro ch member raw
  have size := input.covered (fun found => Nat.le_of_eq (header found).symm) ch member raw
  rw [header ⟨ch, member, raw⟩] at size
  exact size

theorem DigestInput.runs (input : DigestInput fd head chunks)
    (header : (∃ ch ∈ chunks, ch.chunkType = CHUNK_TYPE_RAW) → 12 ≤ head.chunkHdrSz)
    (ok : Unpackable fd.file head.blkSz head.fileHdrSz chunks) (junk : Nat → Byte) (blkbuf fill : List Byte)
    (width : blkbuf.length = head.blkSz) :
    (∃ fdout, sparseUnpack2fd junk fill head false fd Fd.created = some fdout ∧
      fdout.file.content = chunkStream (unpackedSize head.blkSz) fd.file head.fileHdrSz fill chunks) ∧
    sparseSha1sum junk blkbuf fill head fd =
      some (chunkStream (hashedSize head.blkSz) fd.file head.fileHdrSz fill chunks) := by
  have room := input.room
  obtain ⟨done, unpacked, file⟩ := sparseUnpackLoop_stream junk head
    ⟨fd, Fd.created, head.fileHdrSz, 0, fill⟩ rfl input.plain rfl rfl input.limit input.aligned input.stored
    ok (by simp only; omega)
  obtain ⟨done', hashed, hash⟩ := sparseSha1sumLoop_stream junk head
    ⟨fd, head.fileHdrSz, [], blkbuf, fill⟩ rfl input.plain rfl input.limit width input.aligned input.stored
    ok (fun ch member raw => by rw [input.covered header ch member raw]; exact Nat.le_add_right _ _)
  rw [input.count] at unpacked hashed
  constructor
  · refine ⟨done.fdout, by simp [sparseUnpack2fd, unpacked], ?_⟩
    rw [file, Fd.created_writeAt, File.ofBytes_content]
  · simp [sparseSha1sum, hashed, hash]

theorem DigestInput.unpackable (input : DigestInput fd head chunks) {junk : Nat → Byte} {fill : List Byte} {fdout : Fd}
    (run : sparseUnpack2fd junk fill head false fd Fd.created = some fdout) :
    Unpackable fd.file head.blkSz head.fileHdrSz chunks := by
  have room := input.room
  simp only [sparseUnpack2fd, Option.map_eq_some_iff, ← input.count] at run
  obtain ⟨done, loop, _⟩ := run
  exact sparseUnpackLoop_unpackable junk head rfl input.plain rfl rfl input.limit input.aligned input.stored
    (by simp only; omega) loop

theorem DigestInput.agree (input : DigestInput fd head chunks)
    (safe : DigestSafe fd.file head chunks) : DigestAgree fd head := by
  intro junk junk' blkbuf fill fill' fdout stream width fillWidth fillWidth' unpacked hashed
  have ok := input.unpackable unpacked
  have wide := fun found => Nat.le_of_eq (safe.header found).symm
  obtain ⟨⟨fdout', run, content⟩, _⟩ := input.runs wide ok junk blkbuf fill width
  obtain ⟨_, digest⟩ := input.runs wide ok junk' blkbuf fill' width
  obtain rfl := Option.some.inj (run.symm.trans unpacked)
  obtain rfl := Option.some.inj (digest.symm.trans hashed)
  rw [content]
  apply chunkStream_eq fill fill' fillWidth fillWidth' _ input.stored ok _ safe.fill
  · simp
  intro ch member
  by_cases raw : ch.chunkType = CHUNK_TYPE_RAW
  · rw [input.exact safe.header ch member raw]
    simp [hashedSize, raw]
  · by_cases crc : ch.chunkType = CHUNK_TYPE_CRC32
    · rw [unpackedSize_crc32 _ _ crc, hashedSize_crc32 _ _ crc]
    · have hole : ch.chunkType = CHUNK_TYPE_DONT_CARE ∨ ch.chunkType = CHUNK_TYPE_FILL := by
        have kind := ok.known ch member
        simp only [List.mem_cons, List.not_mem_nil, or_false] at kind
        tauto
      simp only [unpackedSize, hashedSize, raw, crc, ↓reduceIte]
      exact mul32_eq_self (safe.product ch member hole)

theorem DigestInput.streams (input : DigestInput fd head chunks)
    (header : (∃ ch ∈ chunks, ch.chunkType = CHUNK_TYPE_RAW) → 12 ≤ head.chunkHdrSz)
    (ok : Unpackable fd.file head.blkSz head.fileHdrSz chunks) (agree : DigestAgree fd head) :
    chunkStream (unpackedSize head.blkSz) fd.file head.fileHdrSz (List.replicate 4 0#8) chunks =
        chunkStream (hashedSize head.blkSz) fd.file head.fileHdrSz (List.replicate 4 1#8) chunks ∧
      (chunks.map (unpackedSize head.blkSz)).sum = (chunks.map (hashedSize head.blkSz)).sum := by
  obtain ⟨⟨fdout, unpacked, content⟩, _⟩ := input.runs header ok (fun _ => 0#8)
    (List.replicate head.blkSz 0#8) (List.replicate 4 0#8) (by simp)
  obtain ⟨_, hashed⟩ := input.runs header ok (fun _ => 0#8) (List.replicate head.blkSz 0#8)
    (List.replicate 4 1#8) (by simp)
  have same := agree _ _ _ _ _ _ _ (by simp) (by simp) (by simp) unpacked hashed
  rw [content] at same
  have lengths := congrArg List.length same
  rw [chunkStream_length _ _ ok (unpackedSize_crc32 head.blkSz),
    chunkStream_length _ _ ok (hashedSize_crc32 head.blkSz)] at lengths
  exact ⟨same, lengths⟩

theorem DigestInput.safe (input : DigestInput fd head chunks)
    (header : (∃ ch ∈ chunks, ch.chunkType = CHUNK_TYPE_RAW) → head.chunkHdrSz = 12)
    (ok : Unpackable fd.file head.blkSz head.fileHdrSz chunks) (agree : DigestAgree fd head) :
    DigestSafe fd.file head chunks := by
  obtain ⟨same, lengths⟩ := input.streams (fun found => Nat.le_of_eq (header found).symm) ok agree
  have sizes := sizes_of_sum
    (fun ch member => unpackedSize_le head.blkSz ch (input.exact header ch member)) lengths
  refine ⟨header, ?_, ?_⟩
  · intro ch member hole
    have size := sizes ch member
    have wrapped := mul32_lt ch.chunkSz head.blkSz
    rcases hole with kind | kind <;> simp [unpackedSize, hashedSize, kind] at size <;> omega
  · apply fills_of_stream (List.replicate 4 0#8) (List.replicate 4 1#8) _ input.aligned input.stored ok sizes
      same
    intro _ i small
    interval_cases i <;> simp

theorem DigestInput.header_of_agree (input : DigestInput fd head chunks) (wide : 12 ≤ head.chunkHdrSz)
    (product : ∀ ch ∈ chunks, ch.chunkType = CHUNK_TYPE_DONT_CARE ∨ ch.chunkType = CHUNK_TYPE_FILL →
      ch.chunkSz * head.blkSz < 2^32)
    (ok : Unpackable fd.file head.blkSz head.fileHdrSz chunks) (agree : DigestAgree fd head) :
    (∃ ch ∈ chunks, ch.chunkType = CHUNK_TYPE_RAW) → head.chunkHdrSz = 12 := by
  rintro ⟨ch, member, raw⟩
  obtain ⟨_, lengths⟩ := input.streams (fun _ => wide) ok agree
  have above : ∀ c ∈ chunks, hashedSize head.blkSz c ≤ unpackedSize head.blkSz c := by
    intro c inside
    by_cases data : c.chunkType = CHUNK_TYPE_RAW
    · rw [input.covered (fun _ => wide) c inside data]
      simp [hashedSize, data]
    · by_cases crc : c.chunkType = CHUNK_TYPE_CRC32
      · rw [hashedSize_crc32 _ _ crc]
        exact Nat.zero_le _
      · have kind := ok.known c inside
        simp only [List.mem_cons, List.not_mem_nil, or_false] at kind
        simp only [unpackedSize, hashedSize, data, crc, ↓reduceIte]
        rw [mul32_eq_self (product c inside (by tauto))]
  have size := input.covered (fun _ => wide) ch member raw
  have equal := sizes_of_sum above lengths.symm ch member
  rw [size] at equal
  simp only [hashedSize, raw, raw_ne_crc32, ↓reduceIte] at equal
  omega

/-- `sha1sum` and `unpack` read the same bytes exactly when no chunk size wraps, chunk headers have
    12 bytes where RAW data follows, and every fill word can be read. -/
theorem sparseSha1sum_unpack_exact (fd : Fd) (head : SparseHeader) (chunks : List ChunkHeader)
    (input : DigestInput fd head chunks)
    (succeeds : ∃ junk fill fdout, sparseUnpack2fd junk fill head false fd Fd.created = some fdout) :
    (DigestSafe fd.file head chunks → DigestAgree fd head) ∧
    (((∃ ch ∈ chunks, ch.chunkType = CHUNK_TYPE_RAW) → head.chunkHdrSz = 12) ∨
      12 ≤ head.chunkHdrSz ∧
        (∀ ch ∈ chunks, ch.chunkType = CHUNK_TYPE_DONT_CARE ∨ ch.chunkType = CHUNK_TYPE_FILL →
          ch.chunkSz * head.blkSz < 2^32) →
      DigestAgree fd head → DigestSafe fd.file head chunks) := by
  refine ⟨input.agree, fun domain agree => ?_⟩
  obtain ⟨junk, fill, fdout, run⟩ := succeeds
  have ok := input.unpackable run
  rcases domain with header | ⟨wide, product⟩
  · exact input.safe header ok agree
  · exact input.safe (input.header_of_agree wide product ok agree) ok agree

end Digest

def holeHeader (blkSz count : Nat) : SparseHeader := ⟨SPARSE_HEADER_MAGIC, 1, 0, 28, 12, blkSz, count, 1, 0⟩

def holeImage (blkSz count : Nat) : Fd :=
  ⟨File.ofBytes ((holeHeader blkSz count).encode ++
    ChunkHeader.encode ⟨CHUNK_TYPE_DONT_CARE, 0, count, 12⟩), 0, 0⟩

theorem holeImage_input (blkSz count : Nat) (width : blkSz < 2^32) (small : count < 2^32)
    (aligned : blkSz % 4 = 0) :
    DigestInput (holeImage blkSz count) (holeHeader blkSz count) [⟨CHUNK_TYPE_DONT_CARE, 0, count, 12⟩] where
  plain := rfl
  limit := by simp [holeImage]
  detected := by
    have stored := File.ofBytes_slice_left (holeHeader blkSz count).encode
      (ChunkHeader.encode ⟨CHUNK_TYPE_DONT_CARE, 0, count, 12⟩)
    have bytes : (Fd.read (holeImage blkSz count) 28).1 = (holeHeader blkSz count).encode := by
      rw [Fd.read_bytes _ _ (by decide), File.readAt_full _ _ _ (by simp [holeImage])]
      rw [SparseHeader.encode_length] at stored
      exact stored
    unfold sparseDetect
    rw [bytes, SparseHeader.decode_encode]
    simp only [holeHeader, Nat.mod_eq_of_lt width, Nat.mod_eq_of_lt small]
    rfl
  stored := by
    have chunk := File.ofBytes_slice_right (holeHeader blkSz count).encode
      (ChunkHeader.encode ⟨CHUNK_TYPE_DONT_CARE, 0, count, 12⟩)
    rw [SparseHeader.encode_length, ChunkHeader.encode_length] at chunk
    refine ⟨by simp [holeImage, holeHeader], ?_, trivial⟩
    simp only [holeImage, holeHeader] at chunk ⊢
    rw [chunk, ChunkHeader.decode_encode_dontcare, Nat.mod_eq_of_lt small]
  count := rfl
  aligned := aligned
  raw := by simp
  room := by
    have wrapped := mul32_lt count blkSz
    simp [unpackedSize, holeHeader]
    omega

theorem holeImage_unpackable (blkSz count : Nat) :
    Unpackable (holeImage blkSz count).file blkSz 28 [⟨CHUNK_TYPE_DONT_CARE, 0, count, 12⟩] := by
  refine ⟨⟨by simp, by simp, by simp⟩, trivial⟩

theorem sparseSha1sum_unpack_exact_hole : DigestAgree (holeImage 4 2) (holeHeader 4 2) := by
  have input := holeImage_input 4 2 (by decide) (by decide) (by decide)
  obtain ⟨⟨fdout, run, _⟩, _⟩ := input.runs (by simp) (holeImage_unpackable 4 2) (fun _ => 0#8)
    (List.replicate 4 0#8) [] (by simp [holeHeader])
  refine (sparseSha1sum_unpack_exact _ _ _ input ⟨_, _, _, run⟩).1 ⟨by simp, ?_, ?_⟩
  · intro ch member _
    simp only [List.mem_singleton] at member
    subst member
    simp [holeHeader]
  · simp [FillsStored]

/-- A hole of `2^32` bytes is hashed in full, yet unpacked to an empty file. -/
theorem digest_hole_lost :
    DigestInput (holeImage 4096 (2^20)) (holeHeader 4096 (2^20)) [⟨CHUNK_TYPE_DONT_CARE, 0, 2^20, 12⟩] ∧
      ¬ DigestAgree (holeImage 4096 (2^20)) (holeHeader 4096 (2^20)) := by
  have input := holeImage_input 4096 (2^20) (by decide) (by decide) (by decide)
  refine ⟨input, fun agree => ?_⟩
  have safe := input.safe (by simp) (holeImage_unpackable 4096 (2^20)) agree
  have product := safe.product ⟨CHUNK_TYPE_DONT_CARE, 0, 2^20, 12⟩ (by simp) (Or.inl rfl)
  exact absurd product (by decide)

end ImgEditor
