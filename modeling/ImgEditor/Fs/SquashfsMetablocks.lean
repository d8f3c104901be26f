import ImgEditor.Fs.Squashfs

namespace ImgEditor

open Storage

section Read

variable {fd : Fd}

theorem fileread_eq_ite {sz : Nat} (inside : fd.pos ≤ fd.file.size) :
    fileread fd sz = if fd.pos + sz ≤ fd.file.size then some (fd.file.slice fd.pos sz) else none := by
  split
  · rename_i whole
    exact fileread_inside whole
  · rename_i short
    rw [fileread, File.readAt_length]
    exact if_neg (by omega)

theorem fileread_outside {sz : Nat} (some_ : 0 < sz) (short : fd.file.size < fd.pos + sz) : fileread fd sz = none := by
  rw [fileread, File.readAt_length]
  exact if_neg (by omega)

theorem squashfsHeader_iff {header : Nat} (small : header < 2^16) :
    (¬ header < SQUASHFS_COMPRESSED_BIT ∧ ¬ squashfsCompressedSize header > SQUASHFS_METADATA_SIZE) ↔
      0x8000 < header ∧ header ≤ 0x8000 + SQUASHFS_METADATA_SIZE := by
  unfold squashfsCompressedSize SQUASHFS_COMPRESSED_BIT SQUASHFS_METADATA_SIZE
  split
  · omega
  · omega

theorem squashfsCompressedSize_eq {header : Nat} (more : 0x8000 < header) (less : header ≤ 0x8000 + SQUASHFS_METADATA_SIZE) :
    squashfsCompressedSize header = header - 0x8000 := by
  unfold squashfsCompressedSize SQUASHFS_COMPRESSED_BIT
  unfold SQUASHFS_METADATA_SIZE at less
  rw [if_neg (by omega)]
  omega

theorem Fd.fileseek_eq (fd : Fd) {offset : Nat} (sought : fd.start + offset < 2^63) :
    fd.fileseek offset = { fd with pos := fd.start + offset } := by
  rw [Fd.fileseek, Fd.lseek64, Nat.mod_eq_of_lt (by omega), if_pos sought]

theorem squashfsReadMetablock_eq {offset : Nat} (sought : fd.start + offset < 2^63) (bufsz : Nat) :
    squashfsReadMetablock fd offset bufsz =
      match Metadata.blockSize fd.file (fd.start + offset) with
      | none => none
      | some size =>
        if fd.start + offset + 2 + min size bufsz ≤ fd.file.size then
          some ⟨fd.file.slice (fd.start + offset + 2) (min size bufsz), (offset + size + 2) % 2^64,
            { fd with pos := fd.start + offset + 2 + min size bufsz }⟩
        else none := by
  rw [squashfsReadMetablock, fd.fileseek_eq sought, Metadata.blockSize]
  dsimp only
  by_cases inside : fd.start + offset + 2 ≤ fd.file.size
  · rw [fileread_inside (by exact inside), if_pos inside, Option.bind_eq_bind, Option.bind_some]
    generalize bytes : leNumber (fd.file.slice (fd.start + offset) 2) = header
    have small : header < 2^16 := by
      have bound := leNumber_lt (fd.file.slice (fd.start + offset) 2)
      rw [bytes, File.slice_length] at bound
      exact bound
    have accepted := squashfsHeader_iff small
    by_cases size : 0x8000 < header ∧ header ≤ 0x8000 + SQUASHFS_METADATA_SIZE
    · obtain ⟨plain, fits⟩ := accepted.mpr size
      rw [if_pos size, if_neg plain, if_neg fits, squashfsCompressedSize_eq size.1 size.2, fileread_eq_ite inside]
      dsimp only
      split
      · rfl
      · rfl
    · rw [if_neg size]
      dsimp only
      split
      · rfl
      · rename_i plain
        rw [if_pos (by_contra fun fits => size (accepted.mp ⟨plain, fits⟩))]
  · rw [fileread_outside (by decide) (by exact Nat.lt_of_not_le inside), if_neg inside]
    rfl

theorem squashfsReadMetablock_length {offset bufsz : Nat} {block : SquashfsMetablock}
    (read : squashfsReadMetablock fd offset bufsz = some block) : block.payload.length ≤ bufsz := by
  obtain ⟨bytes, _, read⟩ := Option.bind_eq_some_iff.mp read
  dsimp only at read
  split at read
  · cases read
  · split at read
    · cases read
    · obtain ⟨payload, stored, last⟩ := Option.bind_eq_some_iff.mp read
      rw [← Option.some.inj last]
      exact Nat.le_trans (Nat.le_of_eq (fileread_length stored)) (Nat.min_le_right _ _)

end Read

section Loop

variable {fd : Fd} {offset limitOffset limitMaxBlocks : Nat}

theorem metaChunk_le (limitOffset offset : Nat) : metaChunk limitOffset offset ≤ SQUASHFS_METADATA_SIZE := by
  unfold metaChunk
  split
  · exact Nat.min_le_right _ _
  · exact Nat.le_refl _

def MetablocksRoom : SquashfsMetablocks → Prop
  | .loop _ _ bufsz _ totalBytes buf => totalBytes + SQUASHFS_METADATA_SIZE ≤ bufsz ∧ totalBytes = buf.length
  | .done _ totalBytes buf => totalBytes = buf.length
  | .null => True

theorem metablocksRoom_step (s t : SquashfsMetablocks) (room : MetablocksRoom s)
    (more : squashfsMetablocksNext limitOffset limitMaxBlocks s = some t) : MetablocksRoom t := by
  cases s with
  | done fd totalBytes buf => cases more
  | null => cases more
  | loop fd offset bufsz blockCount totalBytes buf =>
    rw [squashfsMetablocksNext] at more
    split at more
    · rw [← Option.some.inj more]
      exact room.2
    · split at more
      · rw [← Option.some.inj more]
        trivial
      · rename_i block read
        rw [← Option.some.inj more]
        have length := squashfsReadMetablock_length read
        have chunk := metaChunk_le limitOffset offset
        obtain ⟨room, same⟩ := room
        refine ⟨by omega, ?_⟩
        rw [List.length_append, same]

theorem metablocks_room {s : SquashfsMetablocks} (visited : MetablocksVisits fd offset limitOffset limitMaxBlocks s) :
    MetablocksRoom s :=
  visited.invariant ⟨Nat.le_of_eq (Nat.zero_add _), rfl⟩ metablocksRoom_step

theorem Metadata.blockSize_bounds {f : File} {place size : Nat} (header : Metadata.blockSize f place = some size) :
    place + 2 ≤ f.size ∧ 0 < size ∧ size ≤ SQUASHFS_METADATA_SIZE := by
  unfold Metadata.blockSize at header
  split at header
  · rename_i inside
    dsimp only at header
    split at header
    · have same := Option.some.inj header
      exact ⟨inside, by omega, by omega⟩
    · cases header
  · cases header

/-- A pass that reads a block reads the next one of the chain, and leaves the offset behind it. -/
theorem squashfsReadMetablock_chain (size : fd.file.size < 2^63) (sought : fd.start + offset < 2^63)
    {block : SquashfsMetablock} (read : squashfsReadMetablock fd offset (metaChunk limitOffset offset) = some block) :
    ∃ width, Metadata.blockSize fd.file (fd.start + offset) = some width ∧
      fd.start + offset + 2 + Metadata.cut limitOffset offset width ≤ fd.file.size ∧
      block.payload = fd.file.slice (fd.start + offset + 2) (Metadata.cut limitOffset offset width) ∧
      block.nextOffset = offset + 2 + width ∧ block.fd.file = fd.file ∧ block.fd.start = fd.start := by
  rw [squashfsReadMetablock_eq sought] at read
  split at read
  · cases read
  · rename_i width header
    obtain ⟨inside, positive, most⟩ := Metadata.blockSize_bounds header
    have cut : min width (metaChunk limitOffset offset) = Metadata.cut limitOffset offset width := by
      unfold metaChunk Metadata.cut
      split
      · omega
      · exact Nat.min_eq_left most
    unfold SQUASHFS_METADATA_SIZE at most
    rw [cut] at read
    split at read
    · rename_i whole
      rw [← Option.some.inj read]
      refine ⟨width, header, whole, rfl, ?_, rfl, rfl⟩
      show (offset + width + 2) % 2^64 = offset + 2 + width
      omega
    · cases read

/-- The bytes so far, with the chain that is still to come, are the chain from the start. -/
def MetablocksChain (fd : Fd) (offset limitOffset limitMaxBlocks : Nat) : SquashfsMetablocks → Prop
  | .loop fd' offset' _ blockCount _ buf =>
    fd'.file = fd.file ∧ fd'.start = fd.start ∧ MetablocksFits fd offset' limitOffset ∧
      ∀ rest, Metadata.Chain fd.file fd.start limitOffset limitMaxBlocks offset' blockCount rest →
        Metadata.Chain fd.file fd.start limitOffset limitMaxBlocks offset 0 (buf ++ rest)
  | .done _ _ buf => Metadata.Chain fd.file fd.start limitOffset limitMaxBlocks offset 0 buf
  | .null => True

def metablocksLeft (f : File) (start : Nat) : SquashfsMetablocks → Nat
  | .loop _ offset _ _ _ _ => f.size + 3 - (start + offset) + 1
  | .done _ _ _ | .null => 0

theorem metablocksChain_step (size : fd.file.size < 2^63) (s t : SquashfsMetablocks)
    (chain : MetablocksChain fd offset limitOffset limitMaxBlocks s)
    (more : squashfsMetablocksNext limitOffset limitMaxBlocks s = some t) :
    MetablocksChain fd offset limitOffset limitMaxBlocks t ∧
      metablocksLeft fd.file fd.start t < metablocksLeft fd.file fd.start s := by
  cases s with
  | done fd totalBytes buf => cases more
  | null => cases more
  | loop fd' offset' bufsz blockCount totalBytes buf =>
    obtain ⟨file, start, fits, chain⟩ := chain
    rw [squashfsMetablocksNext] at more
    split at more
    · rename_i reached
      have whole := chain [] (.limit reached)
      rw [List.append_nil] at whole
      rw [← Option.some.inj more]
      exact ⟨whole, Nat.succ_pos _⟩
    · rename_i below
      split at more
      · rw [← Option.some.inj more]
        exact ⟨trivial, Nat.succ_pos _⟩
      · rename_i block read
        rw [← Option.some.inj more]
        have sought : fd.start + offset' < 2^63 := fits.resolve_right fun reached => below (.inr reached)
        obtain ⟨width, header, inside, payload, nextOffset, sameFile, sameStart⟩ :=
          squashfsReadMetablock_chain (by rw [file]; exact size) (by rw [start]; exact sought) read
        rw [file, start] at header inside payload
        obtain ⟨room, positive, _⟩ := Metadata.blockSize_bounds header
        refine ⟨⟨sameFile.trans file, sameStart.trans start, ?_, ?_⟩, ?_⟩
        · rw [nextOffset]
          unfold Metadata.cut at inside
          unfold MetablocksFits
          split at inside
          · -- a payload that is cut ends the chain
            omega
          · omega
        · intro rest later
          rw [nextOffset] at later
          rw [payload, List.append_assoc]
          exact chain _ (.block below header inside later)
        · show fd.file.size + 3 - (fd.start + block.nextOffset) + 1 < fd.file.size + 3 - (fd.start + offset') + 1
          rw [nextOffset]
          omega

end Loop

theorem no_chain {fd : Fd} (size : fd.file.size < 2^63) {offset limitOffset limitMaxBlocks : Nat}
    (misses : ¬ MetablocksFits fd offset limitOffset) (buf : List Byte) :
    ¬ Metadata.Chain fd.file fd.start limitOffset limitMaxBlocks offset 0 buf := by
  unfold MetablocksFits at misses
  intro chain
  cases chain with
  | limit reached =>
    unfold MetaLimit at reached
    omega
  | block more header inside rest =>
    have room := (Metadata.blockSize_bounds header).1
    omega

/-- `fileseek` of an offset that is no `off64_t` leaves the position alone, and the blocks that are there are read. -/
theorem squashfsAllocMetablocks_right (fd : Fd) (size : fd.file.size < 2^63) (offset limitOffset limitMaxBlocks : Nat) :
    (MetablocksFits fd offset limitOffset → MetablocksRight fd offset limitOffset limitMaxBlocks) ∧
      (¬ MetablocksFits fd offset limitOffset → ∀ fd' totalBytes buf,
        MetablocksVisits fd offset limitOffset limitMaxBlocks (.done fd' totalBytes buf) →
          ¬ Metadata.Chain fd.file fd.start limitOffset limitMaxBlocks offset 0 buf) := by
  constructor
  · intro fits
    have first : MetablocksChain fd offset limitOffset limitMaxBlocks (squashfsMetablocksStart fd offset) :=
      ⟨rfl, rfl, fits, fun _ chain => chain⟩
    constructor
    case ends => exact Ends.of_measure _ first (metablocksChain_step size)
    case fits =>
      intro fd' offset' bufsz blockCount totalBytes buf block visited read
      have room := (metablocks_room visited).1
      have length := squashfsReadMetablock_length read
      have chunk := metaChunk_le limitOffset offset'
      omega
    case chain =>
      intro fd' totalBytes buf visited
      have chain := visited.invariant first fun s t holds more => (metablocksChain_step size s t holds more).1
      exact ⟨chain, metablocks_room visited⟩
  · intro misses fd' totalBytes buf _
    exact no_chain size misses buf

def metablockImage : File := File.ofBytes [0x01, 0x80, 0xab]

theorem squashfsAllocMetablocks_right_first : MetablocksRight ⟨metablockImage, 0, 0⟩ 0 0 1 :=
  (squashfsAllocMetablocks_right ⟨metablockImage, 0, 0⟩ (by decide) 0 0 1).1 (.inl (by decide))

/-- The block of offset 0 is the result for an offset far behind the end of the file. -/
theorem squashfsAllocMetablocks_far : ¬ MetablocksRight ⟨metablockImage, 0, 0⟩ (2^63) 0 1 := by
  intro right
  have read : (squashfsReadMetablock ⟨metablockImage, 0, 0⟩ (2^63) (metaChunk 0 (2^63))).isSome = true := by decide +kernel
  obtain ⟨block, found⟩ := Option.isSome_iff_exists.mp read
  have first : squashfsMetablocksNext 0 1 (squashfsMetablocksStart ⟨metablockImage, 0, 0⟩ (2^63)) =
      some (.loop block.fd block.nextOffset (SQUASHFS_METADATA_SIZE + SQUASHFS_METADATA_SIZE) (0 + 1) (0 + block.payload.length)
        ([] ++ block.payload)) := by
    rw [squashfsMetablocksStart, squashfsMetablocksNext, if_neg (by decide), found]
  have last : squashfsMetablocksNext 0 1 (.loop block.fd block.nextOffset (SQUASHFS_METADATA_SIZE + SQUASHFS_METADATA_SIZE)
      (0 + 1) (0 + block.payload.length) ([] ++ block.payload)) =
      some (.done block.fd (0 + block.payload.length) ([] ++ block.payload)) := by
    rw [squashfsMetablocksNext, if_pos (.inl (by decide))]
  exact no_chain (by decide) (by decide) _ (right.chain _ _ _ ((Visits.of_next first).step last)).1

end ImgEditor
