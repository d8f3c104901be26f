import ImgEditor.Android.SparseUnpack

namespace ImgEditor

open Storage

/-- Block `k` of the raw image: the source's own for an added block, zeros for any other. -/
def rawBlock (file : File) (start blksz : Nat) (added : Nat → Bool) (k : Nat) : List Byte :=
  if added k then file.slice (start + k * blksz) blksz else List.replicate blksz 0#8

def rawImage (file : File) (start blksz totalBlks : Nat) (added : Nat → Bool) : List Byte :=
  (List.range totalBlks).flatMap (rawBlock file start blksz added)

/-- What unpacking writes for the chunk of a run, all 32 bit products taken as the code takes them. -/
def unpackedBytes (file : File) (start blksz : Nat) (r : Run) : List Byte :=
  if r.set then file.slice (start + mul32 r.start blksz) (mul32 r.len blksz)
  else List.replicate (mul32 r.len blksz) 0#8

@[simp] theorem unpackedBytes_length (file : File) (start blksz : Nat) (r : Run) :
    (unpackedBytes file start blksz r).length = mul32 r.len blksz := by
  unfold unpackedBytes
  split <;> simp

section RoundTrip

variable {junk : Nat → Byte} {blksz : Nat} {file f : File} {start : Nat}

theorem WrittenBy.data {pos : Nat} {r : Run}
    (written : WrittenBy True blksz (SourceOf file start) (writeSparseChunk junk blksz) f pos r)
    (inside : start + r.stop * blksz ≤ file.size) (small : file.size < 2^63) :
    f.readAt pos (mul32 r.len blksz) = file.slice (start + mul32 r.start blksz) (mul32 r.len blksz) ∧
      ∀ i, pos + mul32 r.len blksz ≤ i → i < pos + r.len * blksz → f.byte i = 0#8 := by
  obtain ⟨before, s, call, here, tight, size, same⟩ := written
  have empty := tight trivial
  obtain ⟨⟨source, origin⟩, plain, bound, _⟩ := call
  have first := mul32_le r.start blksz
  have length := mul32_le r.len blksz
  have stop : r.stop * blksz = r.start * blksz + r.len * blksz := by rw [Run.stop, Nat.add_mul]
  have bytes : chunkBytes blksz s ⟨r.start, r.len⟩ =
      file.slice (start + mul32 r.start blksz) (mul32 r.len blksz) := by
    simp only [chunkBytes, ddStream, Fd.fileseek_file]
    rw [Fd.fileseek_pos _ _ (by rw [origin]; omega), source, origin]
    exact file.readAt_full _ _ (by omega)
  rw [writeSparseChunk_target _ _ _ _ _ plain bound, bytes] at size same
  simp only [Fd.write_file, here] at size same
  constructor
  · by_cases none : mul32 r.len blksz = 0
    · simp [none, File.readAt]
    · have stored := before.file.writeAt_holds pos
        (file.slice (start + mul32 r.start blksz) (mul32 r.len blksz)) (by
          intro nil
          have count := congrArg List.length nil
          simp only [File.slice_length, List.length_nil] at count
          exact none count)
      rw [f.readAt_full _ _ (by have fits := stored.1; rw [File.slice_length] at fits; omega)]
      have whole := stored.2
      rw [File.slice_length] at whole
      rw [← whole]
      apply File.slice_congr
      intro i inside
      exact File.slice_inj same (by omega)
  · intro i lower upper
    have element := File.slice_inj same (i := i - pos) (by omega)
    rw [Nat.add_sub_cancel' (by omega)] at element
    rw [element, File.writeAt_byte_outside _ _ _ _ (by rw [File.slice_length]; omega)]
    exact before.file.hole i (by omega)

def readerStep (blksz : Nat) (r : Run) : Nat := if r.set then (r.len * blksz + 12) % 2^32 else 12

variable (header : SparseHeader)

theorem sparseUnpackChunk_run {r : Run} {rest : List Run} (st : SparseUnpack)
    (size : header.blkSz = blksz) (reading : st.fd.file = f) (plain : st.fd.start = 0)
    (chunks : ChunksAt True blksz (SourceOf file start) (writeSparseChunk junk blksz) f st.offsetIn
      (r :: rest))
    (bound : st.offsetIn + 12 < 2^63) (inside : start + r.stop * blksz ≤ file.size)
    (small : file.size < 2^63) :
    ∃ pos, sparseUnpackChunk junk header false st =
      some ⟨⟨f, 0, pos⟩, (st.fdout.fileseek st.offsetOut).write (unpackedBytes file start blksz r),
        st.offsetIn + readerStep blksz r, st.offsetOut + mul32 r.len blksz, st.fill⟩ := by
  obtain ⟨stored, data, _⟩ := chunks
  obtain ⟨first, len, set⟩ := r
  subst size
  rw [← reading] at stored
  cases set with
  | true =>
    obtain ⟨bytes, _⟩ := (data rfl).data inside small
    rw [runHeader_raw] at stored
    rw [← reading] at bytes
    obtain ⟨pos, step⟩ := sparseUnpackChunk_raw junk header st len _ bound plain stored bytes (by simp)
    rw [plain, reading] at step
    exact ⟨pos, step⟩
  | false =>
    rw [runHeader_dontcare] at stored
    obtain ⟨pos, step⟩ := sparseUnpackChunk_dontcare junk header st len (by omega) stored
    rw [plain, reading] at step
    exact ⟨pos, step⟩

def SizesFit (blksz : Nat) : List Run → Prop
  | [] => True
  | r :: rest => (rest ≠ [] → r.set = true → r.len * blksz + 12 < 2^32) ∧ SizesFit blksz rest

theorem write_plain (fdout : Fd) (offset : Nat) (bytes : List Byte) (plain : fdout.start = 0)
    (bound : offset < 2^63) :
    (fdout.fileseek offset).write bytes = ⟨fdout.file.writeAt offset bytes, 0, offset + bytes.length⟩ := by
  rw [Fd.write, Fd.fileseek_pos _ _ (by omega), Fd.fileseek_file, Fd.fileseek_start, plain, Nat.zero_add]

theorem sparseUnpackLoop_runs {runs : List Run} (st : SparseUnpack) (size : header.blkSz = blksz)
    (reading : st.fd.file = f) (plain : st.fd.start = 0) (plainOut : st.fdout.start = 0)
    (chunks : ChunksAt True blksz (SourceOf file start) (writeSparseChunk junk blksz) f st.offsetIn runs)
    (bound : st.offsetIn + chunksSize blksz runs < 2^63)
    (boundOut : st.offsetOut + (runs.length - 1) * 2^32 < 2^63)
    (inside : ∀ r ∈ runs, start + r.stop * blksz ≤ file.size) (small : file.size < 2^63)
    (fit : SizesFit blksz runs) :
    ∃ done, sparseUnpackLoop junk header false runs.length st = some done ∧
      done.fdout.file = st.fdout.file.writeAt st.offsetOut
        (runs.flatMap (unpackedBytes file start blksz)) := by
  induction runs generalizing st with
  | nil => exact ⟨st, rfl, by simp⟩
  | cons r rest ih =>
    rw [chunksSize_cons] at bound
    rw [List.length_cons] at boundOut
    have header12 : 12 ≤ chunkSize blksz r := by
      unfold chunkSize
      split <;> omega
    obtain ⟨pos, step⟩ := sparseUnpackChunk_run header st size reading plain chunks (by omega)
      (inside r (by simp)) small
    have product := mul32_lt r.len blksz
    rw [write_plain _ _ _ plainOut (by omega), unpackedBytes_length] at step
    simp only [List.length_cons, sparseUnpackLoop, step, Option.bind_some]
    cases rest with
    | nil => exact ⟨_, rfl, by simp⟩
    | cons s more =>
      have aligned : readerStep blksz r = chunkSize blksz r := by
        unfold readerStep chunkSize
        cases set : r.set with
        | true =>
          have total := fit.1 (by simp) set
          simp only [↓reduceIte]
          omega
        | false => rfl
      rw [aligned]
      obtain ⟨done, run, result⟩ := ih
        ⟨⟨f, 0, pos⟩, ⟨st.fdout.file.writeAt st.offsetOut (unpackedBytes file start blksz r), 0,
          st.offsetOut + mul32 r.len blksz⟩, st.offsetIn + chunkSize blksz r,
          st.offsetOut + mul32 r.len blksz, st.fill⟩ rfl rfl rfl chunks.2.2 (by simp only; omega)
        (by simp only [List.length_cons] at boundOut ⊢; omega) (fun t member => inside t (List.mem_cons_of_mem _ member)) fit.2
      refine ⟨done, run, ?_⟩
      have joined := File.writeAt_append st.fdout.file st.offsetOut (unpackedBytes file start blksz r)
        ((s :: more).flatMap (unpackedBytes file start blksz))
      rw [unpackedBytes_length] at joined
      rw [result, joined]
      rfl

omit header in
theorem unpackedBytes_exact {added : Nat → Bool} {r : Run} (length : r.len * blksz < 2^32)
    (origin : r.set = true → r.start * blksz < 2^32)
    (value : ∀ k, r.start ≤ k → k < r.stop → added k = r.set) :
    unpackedBytes file start blksz r =
      (List.range' r.start r.len).flatMap (rawBlock file start blksz added) := by
  obtain ⟨first, len, set⟩ := r
  simp only [Run.stop] at value
  unfold unpackedBytes
  rw [mul32_eq_self length]
  cases set with
  | true =>
    rw [if_pos rfl, mul32_eq_self (origin rfl)]
    clear length origin
    induction len with
    | zero => simp
    | succ len ih =>
      have last := value (first + len) (by omega) (by omega)
      rw [Nat.add_mul, Nat.one_mul, File.slice_add, List.range'_concat, List.flatMap_append,
        ih (fun k lower upper => value k lower (by omega))]
      simp [rawBlock, last, Nat.add_mul, Nat.add_assoc]
  | false =>
    rw [if_neg (by simp)]
    clear length origin
    induction len with
    | zero => simp
    | succ len ih =>
      have last := value (first + len) (by omega) (by omega)
      rw [Nat.add_mul, Nat.one_mul, ← List.replicate_append_replicate, List.range'_concat,
        List.flatMap_append, ih (fun k lower upper => value k lower (by omega))]
      simp [rawBlock, last]

omit header in
theorem unpackedRuns_exact {added : Nat → Bool} {totalBlks lo : Nat} {runs : List Run}
    (tiles : Tiles added totalBlks lo runs)
    (exact : ∀ r ∈ runs, r.len * blksz < 2^32 ∧ (r.set = true → r.start * blksz < 2^32)) :
    runs.flatMap (unpackedBytes file start blksz) =
      (List.range' lo (totalBlks - lo)).flatMap (rawBlock file start blksz added) := by
  induction runs generalizing lo with
  | nil =>
    have done : lo = totalBlks := tiles
    simp [done]
  | cons r rest ih =>
    have within := tiles.mem_bounds (List.mem_cons_self ..)
    obtain ⟨first, _, _, value, _, tail⟩ := tiles
    subst first
    obtain ⟨length, origin⟩ := exact r (by simp)
    have split : List.range' r.start (totalBlks - r.start) =
        List.range' r.start r.len ++ List.range' r.stop (totalBlks - r.stop) := by
      unfold Run.stop at within ⊢
      have total : totalBlks - r.start = r.len + (totalBlks - (r.start + r.len)) := by omega
      rw [total, ← List.range'_append, Nat.one_mul]
    rw [List.flatMap_cons, split, List.flatMap_append, unpackedBytes_exact length origin value,
      ih tail (fun s member => exact s (List.mem_cons_of_mem _ member))]

end RoundTrip

inductive SparseEditor
  | ext2
  | xfs
deriving DecidableEq, Repr

def SparseEditor.writeChunk (editor : SparseEditor) (junk : Nat → Byte) (blockSize : Nat) :
    AndroidSparseWrite Fd :=
  match editor with
  | ext2 => ext2WriteSparseChunk junk blockSize
  | xfs => xfsWriteSparseChunk junk blockSize

theorem SparseEditor.writeChunk_eq (editor : SparseEditor) (junk : Nat → Byte) (blockSize : Nat) :
    editor.writeChunk junk blockSize = writeSparseChunk junk blockSize := by
  cases editor <;> rfl

/-- Every file system image, written as a sparse image and unpacked again, gives its added blocks at
    their places and zeros elsewhere. `junk` and `fill` are uninitialized memory. -/
def SparseRoundTrip (junk : Nat → Byte) (fill : List Byte) (editor : SparseEditor)
    (blksz totalBlks : Nat) (adds : List (Nat × Nat)) : Prop :=
  ∀ src : Fd, src.start + totalBlks * blksz ≤ src.file.size → src.file.size < 2^63 →
    ∃ st head fdout,
      androidSparseFinish (androidSparseAddChunks (androidSparseInit blksz totalBlks) adds) Fd.created
        (editor.writeChunk junk blksz) src = some st ∧
      sparseDetect ⟨st.fdTarget.file, 0, 0⟩ = some head ∧
      sparseUnpack2fd junk fill head false ⟨st.fdTarget.file, 0, 0⟩ Fd.created = some fdout ∧
      fdout.file = File.ofBytes (rawImage src.file src.start blksz totalBlks (addedBlocks adds))

/-- When the round trip is right: no block number leaves `int`, and no product leaves 32 bits. Only
    the last chunk may have a `total_sz` that wraps. -/
structure RoundTripSafe (blksz totalBlks : Nat) (added : Nat → Bool) (runs : List Run) : Prop where
  tiles : Tiles added totalBlks 0 runs
  range : ∀ k, k < totalBlks → added k = true → k + 1 < 2^31
  length : ∀ r ∈ runs, r.len * blksz < 2^32
  origin : ∀ r ∈ runs, r.set = true → r.start * blksz < 2^32
  sizes : SizesFit blksz runs

section Image

variable {junk : Nat → Byte} {fill : List Byte} {blksz totalBlks : Nat} {file : File} {start : Nat}

theorem sparseDetect_image {added : Nat → Bool} {σ : Type} {I : σ → Prop}
    {writeCb : AndroidSparseWrite σ} {f : File} {runs : List Run}
    (image : SparseImage True blksz totalBlks added I writeCb f runs) (width : blksz < 2^32)
    (count : runs.length < 2^32) :
    sparseDetect ⟨f, 0, 0⟩ =
      some ⟨SPARSE_HEADER_MAGIC, 1, 0, 28, 12, blksz, totalBlks % 2^32, runs.length, 0⟩ := by
  have stored := image.header.readAt
  rw [SparseHeader.encode_length] at stored
  have bytes : (Fd.read ⟨f, 0, 0⟩ 28).1 = (finishedHeader blksz totalBlks runs.length).encode := by
    rw [Fd.read_bytes _ _ (by decide)]
    exact stored
  unfold sparseDetect
  rw [bytes, SparseHeader.decode_encode]
  simp only [finishedHeader, Nat.mod_eq_of_lt width, Nat.mod_eq_of_lt count]
  rfl

theorem sparseImage_written (junk : Nat → Byte) (editor : SparseEditor) (adds : List (Nat × Nat)) (src : Fd)
    (width : blksz < 2^32) (inside : ∀ add ∈ adds, add.2 = 0 ∨ add.1 + add.2 ≤ totalBlks)
    (range : ∀ k, k < totalBlks → addedBlocks adds k = true → k + 1 < 2^31) :
    ∃ st runs, androidSparseFinish (androidSparseAddChunks (androidSparseInit blksz totalBlks) adds)
        Fd.created (editor.writeChunk junk blksz) src = some st ∧
      SparseImage True blksz totalBlks (addedBlocks adds) (SourceOf src.file src.start)
        (writeSparseChunk junk blksz) st.fdTarget.file runs := by
  obtain ⟨marked, input, total, same⟩ := androidSparseAddChunks_marks blksz inside
  have regular : marked.IntRange := by
    intro k bound set
    rw [same] at set
    exact range k (by omega) set
  obtain ⟨st, result, outcome⟩ := androidSparseFinish_image True
    (writeSparseChunk_confined junk blksz src.file src.start)
    (androidSparseAddChunks (androidSparseInit blksz totalBlks) adds) marked Fd.created src
    (by rw [input]) (by rw [input]; rfl) (by rw [input]; rfl) (by rw [input, total]; rfl) regular width
    rfl ⟨rfl, rfl⟩ (fun _ => Nat.zero_le _)
  rw [editor.writeChunk_eq]
  rcases outcome with ⟨negative, fd, chunk, s, _, failed⟩ | ⟨_, runs, image⟩
  · rw [failed, writeSparseChunk_ret] at negative
    omega
  · rw [total, same] at image
    exact ⟨st, runs, result, image⟩

theorem run_inside {added : Nat → Bool} {runs : List Run} (tiles : Tiles added totalBlks 0 runs)
    (holds : start + totalBlks * blksz ≤ file.size) {r : Run} (member : r ∈ runs) :
    start + r.stop * blksz ≤ file.size := by
  have bounds := tiles.mem_bounds member
  have product : r.stop * blksz ≤ totalBlks * blksz := Nat.mul_le_mul_right _ bounds.2.2
  omega

theorem sparseRoundTrip_of_safe (junk : Nat → Byte) (fill : List Byte) (editor : SparseEditor)
    (adds : List (Nat × Nat)) (runs : List Run) (width : blksz < 2^32)
    (inside : ∀ add ∈ adds, add.2 = 0 ∨ add.1 + add.2 ≤ totalBlks)
    (safe : RoundTripSafe blksz totalBlks (addedBlocks adds) runs) :
    SparseRoundTrip junk fill editor blksz totalBlks adds := by
  intro src holds small
  obtain ⟨st, written, result, image⟩ := sparseImage_written junk editor adds src width inside safe.range
  have same : written = runs := image.tiles.unique safe.tiles
  subst same
  have count : written.length ≤ 2^31 := by
    have limit := safe.tiles.length_le_limit (2^31 - 1) (fun k bound set => by
      have below := safe.range k bound set
      omega)
    omega
  have detected := sparseDetect_image image width (by omega)
  have addressable := image.addressable
  obtain ⟨done, run, file⟩ := sparseUnpackLoop_runs
    ⟨SPARSE_HEADER_MAGIC, 1, 0, 28, 12, blksz, totalBlks % 2^32, written.length, 0⟩
    ⟨⟨st.fdTarget.file, 0, 0⟩, Fd.created, 28, 0, fill⟩ rfl rfl rfl rfl image.chunks
    (by simp only; omega) (by simp only; omega) (fun r member => run_inside image.tiles holds member)
    small safe.sizes
  refine ⟨st, _, done.fdout, result, detected, ?_, ?_⟩
  · simp only [sparseUnpack2fd, run, Option.map_some]
  · rw [file, unpackedRuns_exact safe.tiles fun r member => ⟨safe.length r member, safe.origin r member⟩,
      rawImage, List.range_eq_range', Nat.sub_zero, File.ofBytes_eq_writeAt]
    rfl

end Image

end ImgEditor
