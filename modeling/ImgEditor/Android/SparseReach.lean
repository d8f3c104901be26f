import ImgEditor.Android.SparseWrap

namespace ImgEditor

open Storage

/-- Two sources that differ only in bytes from `limit` on. -/
structure SameBelow (limit : Nat) (left right : Fd) : Prop where
  start : left.start = 0 ∧ right.start = 0
  pos : left.pos = right.pos
  size : left.file.size = right.file.size
  byte : ∀ i, i < limit → left.file.byte i = right.file.byte i

theorem mul32_multiple (a blksz exponent : Nat) (power : blksz = 2^exponent) (small : exponent ≤ 31) :
    mul32 a blksz + blksz ≤ 2^32 := by
  have whole : 2^32 = 2^(32 - exponent) * blksz := by
    rw [power, ← Nat.pow_add]
    congr 1
    omega
  have below := Nat.mod_lt a (Nat.two_pow_pos (32 - exponent))
  unfold mul32
  rw [whole, Nat.mul_mod_mul_right, ← Nat.succ_mul]
  exact Nat.mul_le_mul_right _ below

/-- Wrapped to 32 bits, neither product reaches the last block below `2^32`, so no read goes further. -/
theorem writeSparseChunk_agree (junk : Nat → Byte) (blksz exponent : Nat) (power : blksz = 2^exponent)
    (small : exponent ≤ 31) :
    Agree (SameBelow (2^33 - 2 * blksz)) (writeSparseChunk junk blksz) := by
  intro fd chunk s t same
  have first := mul32_multiple chunk.fsBlocknr blksz exponent power small
  have count := mul32_multiple chunk.count blksz exponent power small
  have leftPos : (s.fileseek (mul32 chunk.fsBlocknr blksz)).pos = mul32 chunk.fsBlocknr blksz := by
    rw [Fd.fileseek_pos _ _ (by rw [same.start.1]; omega), same.start.1, Nat.zero_add]
  have rightPos : (t.fileseek (mul32 chunk.fsBlocknr blksz)).pos = mul32 chunk.fsBlocknr blksz := by
    rw [Fd.fileseek_pos _ _ (by rw [same.start.2]; omega), same.start.2, Nat.zero_add]
  have bytes : chunkBytes blksz t chunk = chunkBytes blksz s chunk := by
    simp only [chunkBytes, ddStream, leftPos, rightPos, Fd.fileseek_file, File.readAt, same.size]
    apply File.slice_congr
    intro i bound
    exact (same.byte _ (by omega)).symm
  simp only [writeSparseChunk_eq, bytes, ddAdvance, Option.map_some, Option.getD_some, true_and]
  exact ⟨by simp [same.start], by simp [leftPos, rightPos], by simp [same.size], by simpa using same.byte⟩

theorem reach_of_roundTrip {junk : Nat → Byte} {fill : List Byte} {blksz totalBlks exponent : Nat}
    (editor : SparseEditor) (adds : List (Nat × Nat)) (power : blksz = 2^exponent) (small : exponent ≤ 31)
    (fits : totalBlks * blksz < 2^63) (right : SparseRoundTrip junk fill editor blksz totalBlks adds)
    {k : Nat} (inside : k < totalBlks) (added : addedBlocks adds k = true) :
    k * blksz < 2^33 - 2 * blksz := by
  by_contra far
  have positive : 0 < blksz := by
    rw [power]
    exact Nat.two_pow_pos exponent
  have place : k * blksz < totalBlks * blksz := Nat.mul_lt_mul_of_pos_right inside positive
  have size := markedFile_size (totalBlks * blksz) (k * blksz) place
  have plainSize : (File.ofBytes (List.replicate (totalBlks * blksz) 0#8)).size = totalBlks * blksz := by simp
  have same : SameBelow (2^33 - 2 * blksz) ⟨markedFile (totalBlks * blksz) (k * blksz), 0, 0⟩
      ⟨File.ofBytes (List.replicate (totalBlks * blksz) 0#8), 0, 0⟩ := by
    refine ⟨⟨rfl, rfl⟩, rfl, size.trans plainSize.symm, ?_⟩
    intro i bound
    exact File.writeAt_byte_outside _ _ _ _ (Or.inl (by omega))
  obtain ⟨st, head, fdout, result, detected, unpacked, file⟩ :=
    right ⟨markedFile (totalBlks * blksz) (k * blksz), 0, 0⟩ (by simp only; omega) (by simp only; omega)
  obtain ⟨st', head', fdout', result', detected', unpacked', file'⟩ :=
    right ⟨File.ofBytes (List.replicate (totalBlks * blksz) 0#8), 0, 0⟩ (by simp only; omega)
      (by simp only; omega)
  have images := androidSparseFinish_agree (writeSparseChunk_agree junk blksz exponent power small)
    (androidSparseAddChunks (androidSparseInit blksz totalBlks) adds) Fd.created _ _ same
  rw [editor.writeChunk_eq] at result result'
  rw [result, result', Option.map_some, Option.map_some, Option.some.injEq] at images
  rw [images, detected, Option.some.injEq] at detected'
  rw [images, ← detected', unpacked, Option.some.injEq] at unpacked'
  rw [← unpacked', file] at file'
  have element := congrArg (fun bytes => bytes.getD (k * blksz) 0#8) (File.ofBytes_inj file')
  simp only [rawImage_getD _ _ _ inside positive, added, ↓reduceIte, Nat.zero_add, markedFile_byte] at element
  simp [List.getD_eq_getElem?_getD, place] at element

/-- The sparse round trip: right whenever every bound is met, and, for blocks of at least four bytes
    or block numbers inside `int`, only then. -/
theorem sparseRoundTrip_exact (junk : Nat → Byte) (fill : List Byte) (editor : SparseEditor)
    (exponent totalBlks : Nat) (adds : List (Nat × Nat)) (small : exponent ≤ 31)
    (inside : ∀ add ∈ adds, add.2 = 0 ∨ add.1 + add.2 ≤ totalBlks)
    (fits : totalBlks * 2^exponent < 2^63) :
    ((∃ runs, RoundTripSafe (2^exponent) totalBlks (addedBlocks adds) runs) →
      SparseRoundTrip junk fill editor (2^exponent) totalBlks adds) ∧
    (2 ≤ exponent ∨ (∀ k, k < totalBlks → addedBlocks adds k = true → k + 1 < 2^31) →
      SparseRoundTrip junk fill editor (2^exponent) totalBlks adds →
        ∃ runs, RoundTripSafe (2^exponent) totalBlks (addedBlocks adds) runs) := by
  have width : 2^exponent < 2^32 := Nat.pow_lt_pow_right (by decide) (by omega)
  constructor
  · rintro ⟨runs, safe⟩
    exact sparseRoundTrip_of_safe junk fill editor adds runs width inside safe
  · intro domain right
    apply safe_of_roundTrip editor adds rfl width inside _ fits right
    rcases domain with wide | range
    · intro k below added
      have reach := reach_of_roundTrip editor adds rfl small fits right below added
      have four : 2^2 ≤ 2^exponent := Nat.pow_le_pow_right (by decide) wide
      -- a block from `2^31 - 1` on starts beyond every byte that is ever read
      by_contra high
      have product : (2^31 - 1) * 2^exponent ≤ k * 2^exponent := Nat.mul_le_mul_right _ (by omega)
      omega
    · exact range

theorem addedBlocks_single (first count k : Nat) :
    addedBlocks [(first, count)] k = decide (first ≤ k ∧ k < first + count) := by
  simp [addedBlocks]

theorem sparseRoundTrip_exact_small :
    SparseRoundTrip (fun _ => 0#8) [0#8, 0#8, 0#8, 0#8] .ext2 (2^12) 3 [(1, 1)] := by
  apply (sparseRoundTrip_exact (fun _ => 0#8) [0#8, 0#8, 0#8, 0#8] .ext2 12 3 [(1, 1)] (by decide) (by decide)
    (by decide)).1
  refine ⟨[⟨0, 1, false⟩, ⟨1, 1, true⟩, ⟨2, 1, false⟩], ⟨?_, ?_, by decide, by decide, ?_⟩⟩
  · refine ⟨rfl, by decide, by decide, ?_, by decide, rfl, by decide, by decide, ?_, by decide, rfl,
      by decide, by decide, ?_, by decide, rfl⟩
    all_goals
      intro i lower upper
      simp only [Run.stop] at lower upper
      simp only [addedBlocks_single, decide_eq_true_eq, decide_eq_false_iff_not]
      omega
  · intro k bound _
    omega
  · simp [SizesFit]

/-- One block in front of a hole of `2^32` bytes: the hole is lost. -/
theorem sparseRoundTrip_hole :
    ¬ SparseRoundTrip (fun _ => 0#8) [0#8, 0#8, 0#8, 0#8] .ext2 (2^12) (2^20 + 1) [(0, 1)] := by
  intro right
  obtain ⟨runs, safe⟩ := safe_of_roundTrip .ext2 [(0, 1)] (show 2^12 = 2^12 from rfl) (by decide) (by decide)
    (fun k _ added => by
      simp only [addedBlocks_single, decide_eq_true_eq] at added
      omega) (by decide) right
  have tiles : Tiles (addedBlocks [(0, 1)]) (2^20 + 1) 0 [⟨0, 1, true⟩, ⟨1, 2^20, false⟩] := by
    refine ⟨rfl, by decide, by decide, ?_, by decide, rfl, by decide, by decide, ?_, by decide, rfl⟩
    all_goals
      intro i lower upper
      simp only [Run.stop] at lower upper
      simp only [addedBlocks_single, decide_eq_true_eq, decide_eq_false_iff_not]
      omega
  obtain rfl := safe.tiles.unique tiles
  have length := safe.length ⟨1, 2^20, false⟩ (by simp)
  exact absurd length (by decide)

end ImgEditor
