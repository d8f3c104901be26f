import ImgEditor.Android.SparseRoundTrip
import Mathlib.Algebra.BigOperators.Ring.List
import Mathlib.Tactic.IntervalCases

namespace ImgEditor

open Storage

theorem encode_raw_byte (len blksz T : Nat) (exponent : Nat) (power : blksz = 2^exponent)
    (small : len < 2^31) (wrapped : (len * blksz + 12) % 2^32 = T) (large : 2^32 ≤ len * blksz + 12)
    (lower : 0 < T) (upper : T < 12) :
    ((ChunkHeader.encode ⟨CHUNK_TYPE_RAW, 0, len, len * blksz + 12⟩).getD T 0#8).toNat ∉
      [0xC1, 0xC2, 0xC3, 0xC4] := by
  have narrow : exponent = 0 ∨ exponent = 1 ∨ exponent = 2 ∨ exponent = 3 := by
    by_contra wide
    have multiple : blksz = 16 * 2^(exponent - 4) := by
      rw [power, show (16 : Nat) = 2^4 by rfl, ← Nat.pow_add]
      congr 1
      omega
    have product : len * blksz = 16 * (len * 2^(exponent - 4)) := by
      rw [multiple, Nat.mul_left_comm]
    omega
  rcases narrow with zero | one | two | three
  · subst zero power
    interval_cases T <;> simp [ChunkHeader.encode, leBytes, CHUNK_TYPE_RAW] <;> omega
  · subst one power
    interval_cases T <;> simp [ChunkHeader.encode, leBytes, CHUNK_TYPE_RAW] <;> omega
  · subst two power
    interval_cases T <;> simp [ChunkHeader.encode, leBytes, CHUNK_TYPE_RAW] <;> omega
  · subst three power
    interval_cases T <;> simp [ChunkHeader.encode, leBytes, CHUNK_TYPE_RAW] <;> omega

section Misread

variable {junk : Nat → Byte} {blksz : Nat} {file f : File} {start : Nat} (header : SparseHeader)

/-- After a RAW chunk with a wrapped `total_sz` the next read hits its own header or empty space. -/
theorem sparseUnpackChunk_misread {r : Run} {rest : List Run} {offset exponent : Nat} (st : SparseUnpack)
    (power : blksz = 2^exponent) (reading : st.fd.file = f)
    (chunks : ChunksAt True blksz (SourceOf file start) (writeSparseChunk junk blksz) f offset (r :: rest))
    (set : r.set = true) (small : r.len < 2^31) (inside : start + r.stop * blksz ≤ file.size)
    (limit : file.size < 2^63) (wraps : 2^32 ≤ r.len * blksz + 12) (moved : readerStep blksz r ≠ 0)
    (here : st.offsetIn = offset + readerStep blksz r) (bound : st.offsetIn < 2^63) :
    sparseUnpackChunk junk header false st = none := by
  obtain ⟨stored, data, _⟩ := chunks
  have empty := ((data set).data inside limit).2
  have step : readerStep blksz r = (r.len * blksz + 12) % 2^32 := by
    unfold readerStep
    rw [if_pos set]
  apply sparseUnpackChunk_unknown junk header st bound
  rw [reading, here]
  rw [step] at moved ⊢
  by_cases straddles : (r.len * blksz + 12) % 2^32 < 12
  · have byte : f.byte (offset + (r.len * blksz + 12) % 2^32) =
        (ChunkHeader.encode ⟨CHUNK_TYPE_RAW, 0, r.len, r.len * blksz + 12⟩).getD
          ((r.len * blksz + 12) % 2^32) 0#8 := by
      have content := stored.2
      rw [ChunkHeader.encode_length] at content
      rw [← File.slice_getD f offset 12 _ straddles, content]
      unfold runHeader
      rw [if_pos set]
    rw [byte]
    exact encode_raw_byte r.len blksz _ exponent power small rfl wraps (by omega) straddles
  · have zero : f.byte (offset + (r.len * blksz + 12) % 2^32) = 0#8 := by
      apply empty
      · unfold mul32
        omega
      · omega
    rw [zero]
    decide

theorem sparseUnpackLoop_unread (st : SparseUnpack) (chunks : Nat)
    (fails : sparseUnpackChunk junk header false st = none) :
    sparseUnpackLoop junk header false (chunks + 1) st = none := by
  simp [sparseUnpackLoop, fails]

/-- A `total_sz` that wrapped to zero makes the reader unpack the same chunk again and again. -/
theorem sparseUnpackLoop_stuck {r : Run} {rest : List Run} (st : SparseUnpack) (count : Nat)
    (size : header.blkSz = blksz) (reading : st.fd.file = f) (plain : st.fd.start = 0)
    (plainOut : st.fdout.start = 0)
    (chunks : ChunksAt True blksz (SourceOf file start) (writeSparseChunk junk blksz) f st.offsetIn
      (r :: rest))
    (bound : st.offsetIn + 12 < 2^63) (boundOut : st.offsetOut + (count - 1) * 2^32 < 2^63)
    (inside : start + r.stop * blksz ≤ file.size) (small : file.size < 2^63)
    (stuck : readerStep blksz r = 0) :
    ∃ done, sparseUnpackLoop junk header false count st = some done ∧
      done.fdout.file = st.fdout.file.writeAt st.offsetOut
        (List.replicate count (unpackedBytes file start blksz r)).flatten := by
  induction count generalizing st with
  | zero => exact ⟨st, rfl, by simp⟩
  | succ count ih =>
    obtain ⟨pos, step⟩ := sparseUnpackChunk_run header st size reading plain chunks bound inside small
    have product := mul32_lt r.len blksz
    rw [write_plain _ _ _ plainOut (by omega), unpackedBytes_length, stuck, Nat.add_zero] at step
    simp only [sparseUnpackLoop, step, Option.bind_some]
    cases count with
    | zero => exact ⟨_, rfl, by simp⟩
    | succ count =>
      obtain ⟨done, run, result⟩ := ih
        ⟨⟨f, 0, pos⟩, ⟨st.fdout.file.writeAt st.offsetOut (unpackedBytes file start blksz r), 0,
          st.offsetOut + mul32 r.len blksz⟩, st.offsetIn, st.offsetOut + mul32 r.len blksz, st.fill⟩
        rfl rfl rfl chunks bound (by simp only; omega)
      refine ⟨done, run, ?_⟩
      have joined := File.writeAt_append st.fdout.file st.offsetOut (unpackedBytes file start blksz r)
        (List.replicate (count + 1) (unpackedBytes file start blksz r)).flatten
      rw [unpackedBytes_length] at joined
      rw [result, joined]
      rfl

/-- How an unpacking that succeeds can end: it read every header, or it was stuck at one. -/
theorem sparseUnpackLoop_outcome {runs : List Run} {exponent : Nat} (st done : SparseUnpack)
    (power : blksz = 2^exponent) (size : header.blkSz = blksz) (reading : st.fd.file = f)
    (plain : st.fd.start = 0) (plainOut : st.fdout.start = 0)
    (chunks : ChunksAt True blksz (SourceOf file start) (writeSparseChunk junk blksz) f st.offsetIn runs)
    (bound : st.offsetIn + chunksSize blksz runs < 2^63)
    (boundOut : st.offsetOut + (runs.length - 1) * 2^32 < 2^63)
    (inside : ∀ r ∈ runs, start + r.stop * blksz ≤ file.size) (limit : file.size < 2^63)
    (small : ∀ r ∈ runs, r.set = true → r.len < 2^31)
    (run : sparseUnpackLoop junk header false runs.length st = some done) :
    SizesFit blksz runs ∨
      ∃ before r after, runs = before ++ r :: after ∧ after ≠ [] ∧ r.set = true ∧
        readerStep blksz r = 0 ∧
        done.fdout.file = st.fdout.file.writeAt st.offsetOut
          (before.flatMap (unpackedBytes file start blksz) ++
            (List.replicate (after.length + 1) (unpackedBytes file start blksz r)).flatten) := by
  induction runs generalizing st with
  | nil => exact Or.inl trivial
  | cons r rest ih =>
    rw [chunksSize_cons] at bound
    have header12 : 12 ≤ chunkSize blksz r := by
      unfold chunkSize
      split <;> omega
    have within := inside r (by simp)
    obtain ⟨pos, step⟩ := sparseUnpackChunk_run header st size reading plain chunks (by omega)
      within limit
    have product := mul32_lt r.len blksz
    by_cases last : rest = []
    · subst last
      exact Or.inl ⟨fun more => absurd rfl more, trivial⟩
    · have longer : 0 < rest.length := List.length_pos_iff.mpr last
      rw [List.length_cons] at boundOut
      rw [write_plain _ _ _ plainOut (by omega), unpackedBytes_length] at step
      by_cases aligned : readerStep blksz r = chunkSize blksz r
      · simp only [List.length_cons, sparseUnpackLoop, step, Option.bind_some] at run
        rw [aligned] at run
        have fits : r.set = true → r.len * blksz + 12 < 2^32 := by
          intro set
          simp only [readerStep, chunkSize, set, ↓reduceIte] at aligned
          omega
        rcases ih _ rfl rfl rfl chunks.2.2 (by simp only; omega) (by simp only; omega)
          (fun t member => inside t (List.mem_cons_of_mem _ member))
          (fun t member => small t (List.mem_cons_of_mem _ member)) run with
          good | ⟨before, t, after, split, more, set, stuck, result⟩
        · exact Or.inl ⟨fun _ => fits, good⟩
        · refine Or.inr ⟨r :: before, t, after, by rw [split]; rfl, more, set, stuck, ?_⟩
          have joined := File.writeAt_append st.fdout.file st.offsetOut (unpackedBytes file start blksz r)
            (before.flatMap (unpackedBytes file start blksz) ++
              (List.replicate (after.length + 1) (unpackedBytes file start blksz t)).flatten)
          rw [unpackedBytes_length] at joined
          rw [result, joined, List.flatMap_cons, List.append_assoc]
      · have set : r.set = true := by
          by_contra clear
          apply aligned
          simp [readerStep, chunkSize, clear]
        have wraps : 2^32 ≤ r.len * blksz + 12 := by
          simp only [readerStep, chunkSize, set, ↓reduceIte] at aligned
          omega
        by_cases stuck : readerStep blksz r = 0
        · obtain ⟨again, rerun, result⟩ := sparseUnpackLoop_stuck header st (rest.length + 1) size reading
            plain plainOut chunks (by omega) (by omega) within limit stuck
          rw [List.length_cons, rerun] at run
          have same : again = done := Option.some.inj run
          rw [same] at result
          exact Or.inr ⟨[], r, rest, rfl, last, set, stuck, result⟩
        · exfalso
          have shorter : readerStep blksz r ≤ chunkSize blksz r := by
            simp only [readerStep, chunkSize, set, ↓reduceIte]
            have mod := Nat.mod_le (r.len * blksz + 12) (2^32)
            omega
          have misread := sparseUnpackChunk_misread header
            ⟨⟨f, 0, pos⟩, ⟨st.fdout.file.writeAt st.offsetOut (unpackedBytes file start blksz r), 0,
              st.offsetOut + mul32 r.len blksz⟩, st.offsetIn + readerStep blksz r,
              st.offsetOut + mul32 r.len blksz, st.fill⟩ power rfl chunks set (small r (by simp) set) within
            limit wraps stuck rfl (by simp only; omega)
          obtain ⟨others, more⟩ : ∃ n, rest.length = n + 1 := ⟨rest.length - 1, by omega⟩
          simp only [List.length_cons, sparseUnpackLoop, step, Option.bind_some] at run
          rw [more, sparseUnpackLoop_unread header _ _ misread] at run
          cases run

end Misread

section Exact

variable {junk : Nat → Byte} {fill : List Byte} {blksz totalBlks : Nat}

@[simp] theorem rawBlock_length (file : File) (start blksz : Nat) (added : Nat → Bool) (k : Nat) :
    (rawBlock file start blksz added k).length = blksz := by
  unfold rawBlock
  split <;> simp

theorem rawImage_succ (file : File) (start blksz totalBlks : Nat) (added : Nat → Bool) :
    rawImage file start blksz (totalBlks + 1) added =
      rawImage file start blksz totalBlks added ++ rawBlock file start blksz added totalBlks := by
  simp [rawImage, List.range_succ]

@[simp] theorem rawImage_length (file : File) (start blksz totalBlks : Nat) (added : Nat → Bool) :
    (rawImage file start blksz totalBlks added).length = totalBlks * blksz := by
  induction totalBlks with
  | zero => simp [rawImage]
  | succ totalBlks ih => rw [rawImage_succ, List.length_append, ih, rawBlock_length, Nat.succ_mul]

theorem rawImage_getD (file : File) (start : Nat) (added : Nat → Bool) {k : Nat} (inside : k < totalBlks)
    (positive : 0 < blksz) :
    (rawImage file start blksz totalBlks added).getD (k * blksz) 0#8 =
      if added k then file.byte (start + k * blksz) else 0#8 := by
  induction totalBlks with
  | zero => omega
  | succ totalBlks ih =>
    rw [rawImage_succ]
    by_cases last : k = totalBlks
    · subst last
      rw [List.getD_append_right _ _ _ _ (by simp), rawImage_length, Nat.sub_self, rawBlock]
      split
      · exact File.slice_getD _ _ _ 0 positive
      · simp [List.getD_eq_getElem?_getD, positive]
    · have before : k * blksz < totalBlks * blksz := Nat.mul_lt_mul_of_pos_right (by omega) positive
      rw [List.getD_append _ _ _ _ (by rw [rawImage_length]; exact before), ih (by omega)]

theorem unpackedRuns_length (file : File) (start blksz : Nat) (runs : List Run) :
    (runs.flatMap (unpackedBytes file start blksz)).length = (runs.map fun r => mul32 r.len blksz).sum := by
  induction runs with
  | nil => rfl
  | cons r rest ih => simp [ih]

theorem mul32_sum_le (blksz : Nat) (runs : List Run) :
    (runs.map fun r => mul32 r.len blksz).sum ≤ (runs.map Run.len).sum * blksz := by
  induction runs with
  | nil => simp
  | cons r rest ih =>
    have head := mul32_le r.len blksz
    simp only [List.map_cons, List.sum_cons, Nat.add_mul]
    omega

theorem mul32_sum_exact (blksz : Nat) (runs : List Run)
    (whole : (runs.map fun r => mul32 r.len blksz).sum = (runs.map Run.len).sum * blksz) :
    ∀ r ∈ runs, r.len * blksz < 2^32 := by
  induction runs with
  | nil => simp
  | cons r rest ih =>
    have head := mul32_le r.len blksz
    have tail := mul32_sum_le blksz rest
    have wrapped := mul32_lt r.len blksz
    simp only [List.map_cons, List.sum_cons, Nat.add_mul] at whole
    intro s member
    rcases List.mem_cons.mp member with rfl | member
    · omega
    · exact ih (by omega) s member

theorem roundTrip_run (editor : SparseEditor) (adds : List (Nat × Nat)) (src : Fd)
    (width : blksz < 2^32) (inside : ∀ add ∈ adds, add.2 = 0 ∨ add.1 + add.2 ≤ totalBlks)
    (range : ∀ k, k < totalBlks → addedBlocks adds k = true → k + 1 < 2^31)
    (right : SparseRoundTrip junk fill editor blksz totalBlks adds)
    (holds : src.start + totalBlks * blksz ≤ src.file.size) (small : src.file.size < 2^63) :
    ∃ f runs done, SparseImage True blksz totalBlks (addedBlocks adds) (SourceOf src.file src.start)
        (writeSparseChunk junk blksz) f runs ∧ runs.length ≤ 2^31 ∧
      sparseUnpackLoop junk ⟨SPARSE_HEADER_MAGIC, 1, 0, 28, 12, blksz, totalBlks % 2^32, runs.length, 0⟩
        false runs.length ⟨⟨f, 0, 0⟩, Fd.created, 28, 0, fill⟩ = some done ∧
      done.fdout.file = File.ofBytes (rawImage src.file src.start blksz totalBlks (addedBlocks adds)) := by
  obtain ⟨st, runs, result, image⟩ := sparseImage_written junk editor adds src width inside range
  obtain ⟨st', head, fdout, result', detected, unpacked, file⟩ := right src holds small
  have same : st = st' := Option.some.inj (result.symm.trans result')
  subst same
  have count : runs.length ≤ 2^31 := by
    have limit := image.tiles.length_le_limit (2^31 - 1) (fun k bound set => by
      have below := range k bound set
      omega)
    omega
  rw [sparseDetect_image image width (by omega)] at detected
  obtain rfl := Option.some.inj detected
  simp only [sparseUnpack2fd, Option.map_eq_some_iff] at unpacked
  obtain ⟨done, run, target⟩ := unpacked
  exact ⟨_, runs, done, image, count, run, by rw [target, file]⟩

/-- A file of ones tells copied bytes from zeros. -/
def onesFile (size : Nat) : File := File.ofBytes (List.replicate size 1#8)

theorem onesFile_slice (size pos count : Nat) (inside : pos + count ≤ size) :
    (onesFile size).slice pos count = List.replicate count 1#8 := by
  apply List.ext_getElem
  · simp
  · intro i bound _
    rw [File.slice_length] at bound
    simp [File.slice, onesFile, List.getD_eq_getElem?_getD, show pos + i < size by omega]

theorem set_small {p : Nat → Bool} {runs : List Run} (tiles : Tiles p totalBlks 0 runs)
    (range : ∀ k, k < totalBlks → p k = true → k + 1 < 2^31) :
    ∀ r ∈ runs, r.set = true → r.len < 2^31 := by
  intro r member set
  have bounds := tiles.mem_bounds member
  have value := tiles.mem_value member (i := r.stop - 1)
  unfold Run.stop at bounds value
  have last := range (r.start + r.len - 1) (by omega) (by rw [value (by omega) (by omega), set])
  omega

/-- A source of ones shows that no chunk lost bytes and no header was missed. -/
theorem sizes_of_roundTrip {exponent : Nat} (editor : SparseEditor) (adds : List (Nat × Nat))
    (power : blksz = 2^exponent) (width : blksz < 2^32)
    (inside : ∀ add ∈ adds, add.2 = 0 ∨ add.1 + add.2 ≤ totalBlks)
    (range : ∀ k, k < totalBlks → addedBlocks adds k = true → k + 1 < 2^31)
    (fits : totalBlks * blksz < 2^63)
    (right : SparseRoundTrip junk fill editor blksz totalBlks adds) :
    ∃ runs, Tiles (addedBlocks adds) totalBlks 0 runs ∧ SizesFit blksz runs ∧
      ∀ r ∈ runs, r.len * blksz < 2^32 := by
  have positive : 0 < blksz := by
    rw [power]
    exact Nat.two_pow_pos exponent
  have size : (onesFile (totalBlks * blksz)).size = totalBlks * blksz := by simp [onesFile]
  obtain ⟨f, runs, done, image, count, run, file⟩ := roundTrip_run editor adds
    ⟨onesFile (totalBlks * blksz), 0, 0⟩ width inside range right (by simp only; omega) (by simp only; omega)
  have addressable := image.addressable
  have reach : ∀ r ∈ runs, 0 + r.stop * blksz ≤ (onesFile (totalBlks * blksz)).size :=
    fun r member => run_inside image.tiles (by rw [size]; omega) member
  have outcome := sparseUnpackLoop_outcome
    ⟨SPARSE_HEADER_MAGIC, 1, 0, 28, 12, blksz, totalBlks % 2^32, runs.length, 0⟩ _ done power rfl rfl rfl
    rfl image.chunks (by simp only; omega) (by simp only; omega) reach (by simp only [size]; exact fits)
    (set_small image.tiles range) run
  refine ⟨runs, image.tiles, ?_⟩
  rcases outcome with good | ⟨before, r, after, split, more, set, stuck, result⟩
  · obtain ⟨other, rerun, result⟩ := sparseUnpackLoop_runs
      ⟨SPARSE_HEADER_MAGIC, 1, 0, 28, 12, blksz, totalBlks % 2^32, runs.length, 0⟩
      ⟨⟨f, 0, 0⟩, Fd.created, 28, 0, fill⟩ rfl rfl rfl rfl image.chunks (by simp only; omega)
      (by simp only; omega) reach (by simp only [size]; exact fits) good
    obtain rfl := Option.some.inj (rerun.symm.trans run)
    rw [Fd.created_writeAt, file] at result
    have lengths := congrArg List.length (File.ofBytes_inj result)
    have total := image.tiles.sum_len
    rw [rawImage_length, unpackedRuns_length] at lengths
    refine ⟨good, mul32_sum_exact blksz runs ?_⟩
    rw [← lengths, ← total, Nat.zero_add]
  · exfalso
    rw [Fd.created_writeAt, file] at result
    have same := File.ofBytes_inj result
    have tiles := image.tiles
    rw [split] at tiles
    obtain ⟨total, tail⟩ := tiles.split
    have member : r ∈ runs := by simp [split]
    have beyond : r.stop < totalBlks := by
      obtain ⟨_, _, _, _, _, rest⟩ := tail
      obtain ⟨s, others, cons⟩ := List.exists_cons_of_ne_nil more
      have bounds := (cons ▸ rest).mem_bounds (List.mem_cons_self ..)
      unfold Run.stop at bounds ⊢
      omega
    have clear : addedBlocks adds r.stop = false := by
      have other := image.tiles.mem_right member beyond
      simpa [set] using other
    have ones : unpackedBytes (onesFile (totalBlks * blksz)) 0 blksz r =
        List.replicate (mul32 r.len blksz) 1#8 := by
      have fit := reach r member
      have first := mul32_le r.start blksz
      have length := mul32_le r.len blksz
      rw [Run.stop, Nat.add_mul, size] at fit
      unfold unpackedBytes
      rw [if_pos set, onesFile_slice _ _ _ (by omega)]
    -- byte `r.stop * blksz` belongs to a block that was not added, yet comes from a repeated copy
    have early : (before.flatMap (unpackedBytes (onesFile (totalBlks * blksz)) 0 blksz)).length ≤
        r.stop * blksz := by
      have bound := mul32_sum_le blksz before
      rw [unpackedRuns_length]
      apply Nat.le_trans bound
      apply Nat.mul_le_mul_right
      rw [Run.stop]
      omega
    have inner : r.stop * blksz < totalBlks * blksz := Nat.mul_lt_mul_of_pos_right beyond positive
    have element := congrArg (fun bytes => bytes.getD (r.stop * blksz) 0#8) same
    have lengths := congrArg List.length same
    rw [rawImage_length, List.length_append] at lengths
    simp only [rawImage_getD _ _ _ beyond positive, clear, Bool.false_eq_true, ↓reduceIte] at element
    rw [List.getD_append_right _ _ _ _ early, ones, List.flatten_replicate_replicate,
      List.getD_eq_getElem?_getD, List.getElem?_replicate, if_pos] at element
    · simp at element
    · rw [ones, List.flatten_replicate_replicate, List.length_replicate] at lengths
      omega

def markedFile (size at_ : Nat) : File := (File.ofBytes (List.replicate size 0#8)).writeAt at_ [1#8]

theorem markedFile_byte (size at_ i : Nat) :
    (markedFile size at_).byte i = if i = at_ then 1#8 else 0#8 := by
  unfold markedFile
  by_cases here : i = at_
  · rw [File.writeAt_byte_inside _ _ _ _ (by omega) (by simp; omega), if_pos here, here]
    simp
  · rw [File.writeAt_byte_outside _ _ _ _ (by simp; omega), if_neg here]
    simp [List.getD_eq_getElem?_getD, List.getElem?_replicate]
    split <;> rfl

theorem markedFile_size (size at_ : Nat) (inside : at_ < size) : (markedFile size at_).size = size := by
  unfold markedFile
  rw [File.writeAt_size _ _ _ (by simp)]
  simp
  omega

/-- A single byte in the source shows that no chunk was read from a wrapped offset. -/
theorem origins_of_roundTrip {exponent : Nat} {runs : List Run} (editor : SparseEditor)
    (adds : List (Nat × Nat)) (power : blksz = 2^exponent) (width : blksz < 2^32)
    (inside : ∀ add ∈ adds, add.2 = 0 ∨ add.1 + add.2 ≤ totalBlks)
    (range : ∀ k, k < totalBlks → addedBlocks adds k = true → k + 1 < 2^31)
    (fits : totalBlks * blksz < 2^63) (tiles : Tiles (addedBlocks adds) totalBlks 0 runs)
    (good : SizesFit blksz runs) (exact : ∀ r ∈ runs, r.len * blksz < 2^32)
    (right : SparseRoundTrip junk fill editor blksz totalBlks adds) :
    ∀ r ∈ runs, r.set = true → r.start * blksz < 2^32 := by
  intro r member set
  by_contra wrapped
  have positive : 0 < blksz := by
    rw [power]
    exact Nat.two_pow_pos exponent
  have bounds := tiles.mem_bounds member
  unfold Run.stop at bounds
  have before_end : r.start < totalBlks := by omega
  have place : r.start * blksz < totalBlks * blksz := Nat.mul_lt_mul_of_pos_right before_end positive
  have size := markedFile_size (totalBlks * blksz) (r.start * blksz) place
  obtain ⟨f, runs', done, image, count, run, file⟩ := roundTrip_run editor adds
    ⟨markedFile (totalBlks * blksz) (r.start * blksz), 0, 0⟩ width inside range right (by simp only; omega)
    (by simp only; omega)
  obtain rfl := image.tiles.unique tiles
  have addressable := image.addressable
  have reach : ∀ s ∈ runs', 0 + s.stop * blksz ≤
      (markedFile (totalBlks * blksz) (r.start * blksz)).size :=
    fun s inner => run_inside tiles (by rw [size]; omega) inner
  obtain ⟨other, rerun, result⟩ := sparseUnpackLoop_runs
    ⟨SPARSE_HEADER_MAGIC, 1, 0, 28, 12, blksz, totalBlks % 2^32, runs'.length, 0⟩
    ⟨⟨f, 0, 0⟩, Fd.created, 28, 0, fill⟩ rfl rfl rfl rfl image.chunks (by simp only; omega)
    (by simp only; omega) reach (by simp only [size]; exact fits) good
  obtain rfl := Option.some.inj (rerun.symm.trans run)
  rw [Fd.created_writeAt, file] at result
  obtain ⟨before, after, split⟩ := List.append_of_mem member
  have ordered := tiles
  rw [split] at ordered
  obtain ⟨total, _⟩ := ordered.split
  have prior : ∀ s ∈ before, s.len * blksz < 2^32 := fun s earlier => exact s (by simp [split, earlier])
  have ahead : (before.flatMap (unpackedBytes
      (markedFile (totalBlks * blksz) (r.start * blksz)) 0 blksz)).length = r.start * blksz := by
    have products : before.map (fun s => mul32 s.len blksz) = before.map (fun s => s.len * blksz) :=
      List.map_congr_left fun s earlier => mul32_eq_self (prior s earlier)
    rw [unpackedRuns_length, products, List.sum_map_mul_right, ← total, Nat.zero_add]
  have nonempty : 0 < mul32 r.len blksz := by
    rw [mul32_eq_self (exact r member)]
    exact Nat.mul_pos bounds.2.1 positive
  have added : addedBlocks adds r.start = true := by
    rw [tiles.mem_value member (Nat.le_refl _) (by unfold Run.stop; omega), set]
  -- the one stands at the start of the run, but the copy began `2^32` bytes or more before it
  have element := congrArg (fun bytes => bytes.getD (r.start * blksz) 0#8) (File.ofBytes_inj result)
  simp only [rawImage_getD _ _ _ before_end positive, added, ↓reduceIte, Nat.zero_add,
    markedFile_byte] at element
  rw [split, List.flatMap_append, List.flatMap_cons,
    List.getD_append_right _ _ _ _ (Nat.le_of_eq ahead), ahead, Nat.sub_self,
    List.getD_append _ _ _ _ (by rw [unpackedBytes_length]; exact nonempty), unpackedBytes, if_pos set,
    File.slice_getD _ _ _ _ nonempty, markedFile_byte, if_neg] at element
  · simp at element
  · have below := mul32_lt r.start blksz
    omega

theorem safe_of_roundTrip {exponent : Nat} (editor : SparseEditor) (adds : List (Nat × Nat))
    (power : blksz = 2^exponent) (width : blksz < 2^32)
    (inside : ∀ add ∈ adds, add.2 = 0 ∨ add.1 + add.2 ≤ totalBlks)
    (range : ∀ k, k < totalBlks → addedBlocks adds k = true → k + 1 < 2^31)
    (fits : totalBlks * blksz < 2^63)
    (right : SparseRoundTrip junk fill editor blksz totalBlks adds) :
    ∃ runs, RoundTripSafe blksz totalBlks (addedBlocks adds) runs := by
  obtain ⟨runs, tiles, good, exact⟩ :=
    sizes_of_roundTrip editor adds power width inside range fits right
  exact ⟨runs, tiles, range, exact,
    origins_of_roundTrip editor adds power width inside range fits tiles good exact right, good⟩

end Exact

end ImgEditor
