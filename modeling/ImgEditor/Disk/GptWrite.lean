import ImgEditor.Disk.Gpt

namespace ImgEditor

open Storage

/-- A header at sector 1 behind a sector 0 that does not start with the signature. -/
structure PrimaryHeader (f : File) (hdr : GptHeader) : Prop where
  blank : ∀ i, i < 8 → f.byte i = 0
  stored : f.Holds 512 hdr.encode
  signed : hdr.signature = gptSignature
  sized : hdr.headerSize = 92
  checked : gptHeaderCalcCrc32 hdr = hdr.headerCrc32

theorem gptReadHeader_bytes (old : List Byte) (gptOffset : Nat) (fd : Fd) (small : fd.start + gptOffset < 2 ^ 63)
    (full : fd.start + gptOffset + 92 ≤ fd.file.size) (room : old.length = 92) :
    (gptReadHeader old gptOffset fd).1 = fd.file.slice (fd.start + gptOffset) 92 := by
  simp only [gptReadHeader]
  rw [Fd.read_bytes _ _ (by decide), Fd.fileseek_file, Fd.fileseek_pos _ _ small,
    File.readAt_full _ _ _ full, List.drop_eq_nil_of_le (by simp [room]), List.append_nil]

@[simp] theorem gptReadHeader_file (old : List Byte) (gptOffset : Nat) (fd : Fd) :
    (gptReadHeader old gptOffset fd).2.file = fd.file := by
  simp [gptReadHeader]

@[simp] theorem gptReadHeader_start (old : List Byte) (gptOffset : Nat) (fd : Fd) :
    (gptReadHeader old gptOffset fd).2.start = fd.start := by
  simp [gptReadHeader]

theorem leField_slice_zero (f : File) (count width : Nat) (fits : width ≤ count)
    (blank : ∀ i, i < width → f.byte i = 0) : leField (f.slice 0 count) 0 width = 0 := by
  have zeros : (f.slice 0 count).take width = List.replicate width 0#8 := by
    apply List.ext_getElem
    · simpa using fits
    · intro i _ inside
      have low : i < width := by simpa using inside
      simpa [File.slice] using blank i low
  rw [leField, List.drop_zero, zeros, leNumber_replicate_zero]

theorem PrimaryHeader.gptDetect {f : File} {hdr : GptHeader} (primary : PrimaryHeader f hdr) :
    ∃ fd : Fd, fd.file = f ∧ fd.start = 0 ∧
      ImgEditor.gptDetect ⟨f, 0, 0⟩ = (gptRetryEntries hdr 0 512 [0, 1, 2] fd).map fun partitions =>
        ⟨hdr, hdr.numPartitionEntries.toNat, partitions⟩ := by
  have size := primary.stored.1
  rw [GptHeader.encode_length] at size
  have firstBytes := gptReadHeader_bytes (List.replicate 92 0) 0 ⟨f, 0, 0⟩ (by simp) (by simp; omega) (by simp)
  have unsigned : (GptHeader.decode (gptReadHeader (List.replicate 92 0) 0 ⟨f, 0, 0⟩).1).signature ≠ gptSignature := by
    rw [firstBytes]
    simp only [GptHeader.decode, Nat.zero_add, leField_slice_zero f 92 8 (by decide) primary.blank]
    decide
  have secondBytes := gptReadHeader_bytes (gptReadHeader (List.replicate 92 0) 0 ⟨f, 0, 0⟩).1 512
    (gptReadHeader (List.replicate 92 0) 0 ⟨f, 0, 0⟩).2 (by simp) (by simp; omega) (by rw [firstBytes]; simp)
  have header : GptHeader.decode (gptReadHeader (gptReadHeader (List.replicate 92 0) 0 ⟨f, 0, 0⟩).1 512
      (gptReadHeader (List.replicate 92 0) 0 ⟨f, 0, 0⟩).2).1 = hdr := by
    have image := primary.stored.2
    rw [GptHeader.encode_length] at image
    rw [secondBytes, gptReadHeader_file, gptReadHeader_start, Nat.zero_add, image, GptHeader.decode_encode]
  refine ⟨(gptReadHeader (gptReadHeader (List.replicate 92 0) 0 ⟨f, 0, 0⟩).1 512
    (gptReadHeader (List.replicate 92 0) 0 ⟨f, 0, 0⟩).2).2, by simp, by simp, ?_⟩
  unfold ImgEditor.gptDetect
  simp only [unsigned, if_false, header, primary.signed, primary.sized, primary.checked, ne_eq, not_true_eq_false,
    gptReadHeader_start]
  cases gptRetryEntries hdr 0 512 [0, 1, 2] (gptReadHeader (gptReadHeader (List.replicate 92 0) 0 ⟨f, 0, 0⟩).1 512
    (gptReadHeader (List.replicate 92 0) 0 ⟨f, 0, 0⟩).2).2 <;> rfl

theorem gptRetryEntries_small {hdr : GptHeader} {start gptOffset : Nat} {retries : List Nat} {fd : Fd}
    {partitions : List Byte} (loaded : gptRetryEntries hdr start gptOffset retries fd = some partitions) :
    hdr.sizeofPartitionEntry.toNat * hdr.numPartitionEntries.toNat ≤ 0x7ffff000 := by
  induction retries generalizing fd with
  | nil => simp [gptRetryEntries] at loaded
  | cons retry rest ih =>
    by_contra large
    have short : gptLoadEntries hdr (gptEntriesOffset hdr start gptOffset retry) fd =
        (none, (gptLoadEntries hdr (gptEntriesOffset hdr start gptOffset retry) fd).2) := by
      simp only [gptLoadEntries]
      rw [if_pos]
      simp only [Fd.read, File.readAt_length]
      omega
    rw [gptRetryEntries, short] at loaded
    exact large (ih loaded)

theorem gptRetryEntries_first {hdr : GptHeader} {start gptOffset : Nat} {fd : Fd} {partitions : List Byte}
    (length : partitions.length = hdr.sizeofPartitionEntry.toNat * hdr.numPartitionEntries.toNat)
    (small : partitions.length ≤ 0x7ffff000) (seekable : (lba2sz64 hdr.partitionEntryLba).toNat < 2 ^ 63)
    (stored : fd.file.Holds (lba2sz64 hdr.partitionEntryLba).toNat partitions)
    (checked : crc32 0 partitions = hdr.partitionEntryArrayCrc32) :
    gptRetryEntries hdr start gptOffset [0, 1, 2] fd = some partitions := by
  have bytes : ((fd.lseek64 (lba2sz64 hdr.partitionEntryLba).toNat).read partitions.length).1 = partitions := by
    rw [Fd.read_bytes _ _ small, Fd.lseek64_file, Fd.lseek64_pos _ _ seekable, stored.readAt]
  simp only [gptRetryEntries, gptLoadEntries, gptEntriesOffset, ← length, bytes, checked]
  simp

theorem gptWriteEntries_packed (partitions : List Byte) (count i offset : Nat) (fd : Fd)
    (inside : 128 * (i + count) ≤ partitions.length) (low : offset + 128 * count < 2 ^ 63) :
    ∃ fd', gptWriteEntries partitions 128 count i offset fd = some fd' ∧ fd'.start = fd.start ∧
      fd'.file = fd.file.writeAt offset ((partitions.drop (128 * i)).take (128 * count)) := by
  induction count generalizing i offset fd with
  | zero => exact ⟨fd, rfl, rfl, by simp⟩
  | succ count ih =>
    have next : (offset + 128) % 2 ^ 64 = offset + 128 := Nat.mod_eq_of_lt (by omega)
    obtain ⟨fd', written, start, file⟩ := ih (i + 1) (offset + 128)
      ((fd.lseek64 offset).write ((partitions.drop (128 * i)).take 128)) (by omega) (by omega)
    refine ⟨fd', ?_, by simpa using start, ?_⟩
    · rw [gptWriteEntries, if_pos (by omega), next]
      exact written
    · have first : ((partitions.drop (128 * i)).take 128).length = 128 := by
        simp only [List.length_take, List.length_drop]
        omega
      have whole : (partitions.drop (128 * i)).take (128 * (count + 1)) =
          (partitions.drop (128 * i)).take 128 ++ (partitions.drop (128 * (i + 1))).take (128 * count) := by
        have parts : 128 * (count + 1) = 128 + 128 * count := by omega
        rw [parts, List.take_add, List.drop_drop, Nat.mul_succ]
      rw [file, Fd.write_file, Fd.lseek64_file, Fd.lseek64_pos _ _ (by omega), whole, ← File.writeAt_append, first]

theorem gptWriteEntries_frame {partitions : List Byte} {stride count i offset : Nat} {fd fd' : Fd}
    (written : gptWriteEntries partitions stride count i offset fd = some fd') (above : 1024 ≤ offset)
    (fits : offset + count * stride < 2 ^ 64) (position : offset < 2 ^ 63 ∨ 1024 ≤ fd.pos) :
    fd'.start = fd.start ∧ fd.file.size ≤ fd'.file.size ∧
      ∀ byte, byte < 1024 → fd'.file.byte byte = fd.file.byte byte := by
  induction count generalizing i offset fd with
  | zero =>
    obtain rfl := Option.some.inj written
    exact ⟨rfl, le_refl _, fun _ _ => rfl⟩
  | succ count ih =>
    rw [gptWriteEntries] at written
    split at written
    · have step : (count + 1) * stride = count * stride + stride := Nat.succ_mul count stride
      have next : (offset + stride) % 2 ^ 64 = offset + stride := Nat.mod_eq_of_lt (by omega)
      rw [next] at written
      have behind : 1024 ≤ (fd.lseek64 offset).pos := by
        by_cases seekable : offset < 2 ^ 63
        · rw [Fd.lseek64_pos _ _ seekable]
          exact above
        · have kept : fd.lseek64 offset = fd := by
            unfold Fd.lseek64
            rw [if_neg (by omega)]
          rw [kept]
          exact position.resolve_left seekable
      obtain ⟨start, grows, same⟩ := ih written (by omega) (by omega)
        (Or.inr (by rw [Fd.write_pos]; omega))
      rw [Fd.write_file, Fd.lseek64_file] at grows same
      refine ⟨by simpa using start, le_trans (File.size_le_writeAt _ _ _) grows, fun byte low => ?_⟩
      rw [same byte low, File.writeAt_byte_outside _ _ _ _ (Or.inl (by omega))]
    · exact absurd written (by simp)

theorem gptWriteEntries_inside {partitions : List Byte} {stride count i offset : Nat} {fd fd' : Fd}
    (written : gptWriteEntries partitions stride count i offset fd = some fd') (nonempty : count ≠ 0) :
    128 * (i + count) ≤ partitions.length := by
  induction count generalizing i offset fd with
  | zero => exact absurd rfl nonempty
  | succ count ih =>
    rw [gptWriteEntries] at written
    split at written
    · rename_i here
      by_cases last : count = 0
      · subst last
        omega
      · have rest := ih written last
        omega
    · exact absurd written (by simp)

theorem gptWriteMbr_created :
    (gptWriteMbr Fd.created).start = 0 ∧ (gptWriteMbr Fd.created).file.size = 512 ∧
      ∀ byte, byte < 446 → (gptWriteMbr Fd.created).file.byte byte = 0 := by
  have table : (Fd.created.lseek64 DOS_PART_TBL_OFFSET).pos = 446 := Fd.lseek64_pos _ _ (by decide)
  have magic : (((Fd.created.lseek64 DOS_PART_TBL_OFFSET).write gptMbr).lseek64 DOS_PART_MAGIC_OFFSET).pos = 510 :=
    Fd.lseek64_pos _ _ (by decide)
  refine ⟨by simp [gptWriteMbr, Fd.created], ?_, ?_⟩
  · simp only [gptWriteMbr, Fd.write_file, Fd.lseek64_file, table, magic]
    rw [File.writeAt_size _ _ _ (by decide), File.writeAt_size _ _ _ (by decide)]
    decide
  · intro byte low
    simp only [gptWriteMbr, Fd.write_file, Fd.lseek64_file, table, magic]
    rw [File.writeAt_byte_outside _ _ _ _ (Or.inl (by omega)), File.writeAt_byte_outside _ _ _ _ (Or.inl low)]
    rfl

def gptWrittenHeader (hdr : GptHeader) (partitions : List Byte) : GptHeader :=
  let hdr := gptWriteDefaults hdr
  let hdr := { hdr with
    signature := gptSignature
    revision := GPT_HEADER_REVISION_V1
    headerSize := 92
    partitionEntryArrayCrc32 := crc32 0
      (partitions.take (hdr.numPartitionEntries * hdr.sizeofPartitionEntry).toNat) }
  { hdr with headerCrc32 := gptHeaderCalcCrc32 hdr }

theorem gptWriteDefaults_myLba {hdr : GptHeader} (lba : hdr.myLba = 0 ∨ hdr.myLba = 1) :
    (gptWriteDefaults hdr).myLba = 1 := by
  rcases lba with lba | lba <;> simp [gptWriteDefaults, lba]

theorem gptWrite_some {hdr : GptHeader} {partitions : List Byte} (lba : hdr.myLba = 0 ∨ hdr.myLba = 1)
    {image : Fd} : gptWrite hdr partitions Fd.created = some image ↔
      ∃ fd, gptWriteEntries partitions (gptWriteDefaults hdr).sizeofPartitionEntry.toNat
          (gptWriteDefaults hdr).numPartitionEntries.toNat 0 (gptWriteOffset hdr) (gptWriteMbr Fd.created) =
            some fd ∧
        ((gptWriteDefaults hdr).numPartitionEntries * (gptWriteDefaults hdr).sizeofPartitionEntry).toNat ≤
          partitions.length ∧
        image = (fd.lseek64 512).write (gptWrittenHeader hdr partitions).encode := by
  have one := gptWriteDefaults_myLba lba
  have mbr : ((gptWriteDefaults hdr).myLba.truncate 32).toNat > 0 := by
    rw [one]
    decide
  have sector : (lba2sz32 ((gptWriteDefaults hdr).myLba.truncate 32)).toNat = 512 := by
    rw [one]
    decide
  simp only [gptWrite, Option.bind_eq_bind, Option.bind_eq_some_iff, if_pos mbr, sector, Option.pure_def]
  constructor
  · rintro ⟨fd, written, rest⟩
    split at rest
    · rename_i inside
      exact ⟨fd, written, inside, (Option.some.inj rest).symm⟩
    · exact absurd rest (by simp)
  · rintro ⟨fd, written, inside, rfl⟩
    refine ⟨fd, written, ?_⟩
    rw [if_pos inside]
    rfl

theorem gptWrittenHeader_primary (hdr : GptHeader) (partitions : List Byte) (fd : Fd)
    (kept : ∀ byte, byte < 446 → fd.file.byte byte = 0) :
    PrimaryHeader ((fd.lseek64 512).write (gptWrittenHeader hdr partitions).encode).file
      (gptWrittenHeader hdr partitions) where
  blank := by
    intro byte low
    rw [Fd.write_file, Fd.lseek64_file, Fd.lseek64_pos _ _ (by decide),
      File.writeAt_byte_outside _ _ _ _ (Or.inl (by omega)), kept byte (by omega)]
  stored := by
    rw [Fd.write_file, Fd.lseek64_file, Fd.lseek64_pos _ _ (by decide)]
    apply File.writeAt_holds
    intro empty
    have length := congrArg List.length empty
    simp at length
  signed := rfl
  sized := rfl
  checked := rfl

/-- The entry area of the header, after the defaults of `gpt_write`, stays out of sector 1. -/
def EntriesApart (hdr : GptHeader) : Prop :=
  let first := (gptWriteDefaults hdr).partitionEntryLba.toNat * 512
  let last := first + hdr.sizeofPartitionEntry.toNat * hdr.numPartitionEntries.toNat
  last ≤ 512 ∨ 1024 ≤ first ∨ first = last

/-- The written image is accepted, its entries are where the header says, and they are loaded again. -/
def GptWriteMeets (hdr : GptHeader) (entries : List GptEntry) : Prop :=
  ∃ image, gptWrite hdr (encodeEntries entries) Fd.created = some image ∧
    gptWriteOffset hdr = (gptWriteDefaults hdr).partitionEntryLba.toNat * 512 ∧
    ∃ loaded, gptDetect ⟨image.file, 0, 0⟩ = some loaded ∧ loaded.entries = entries

/-- There are entries, of exactly 128 bytes, that one read(2) can load, and their first byte is below
4 GiB. -/
structure GptWriteSafe (hdr : GptHeader) : Prop where
  near : (gptWriteDefaults hdr).partitionEntryLba.toNat < 2 ^ 23
  filled : hdr.numPartitionEntries ≠ 0
  packed : hdr.sizeofPartitionEntry = 128
  readable : hdr.numPartitionEntries.toNat * 128 ≤ 0x7ffff000

theorem gptWriteDefaults_lba_pos (hdr : GptHeader) : 0 < (gptWriteDefaults hdr).partitionEntryLba.toNat := by
  simp only [gptWriteDefaults]
  split
  · decide
  · rename_i nonzero
    apply Nat.pos_of_ne_zero
    exact fun zero => nonzero (BitVec.eq_of_toNat_eq zero)

theorem gptWriteOffset_eq (hdr : GptHeader) :
    gptWriteOffset hdr = (gptWriteDefaults hdr).partitionEntryLba.toNat % 2 ^ 23 * 512 := by
  have factor : (512 : BitVec 32).toNat = 512 := by decide
  simp only [gptWriteOffset, lba2sz32, BitVec.truncate_eq_setWidth, BitVec.toNat_mul, BitVec.toNat_setWidth, factor]
  omega

section Exact

variable {hdr : GptHeader} {entries : List GptEntry}

theorem GptWriteSafe.loaded (safe : GptWriteSafe hdr) (table : hdr.numPartitionEntries.toNat = entries.length)
    (lba : hdr.myLba = 0 ∨ hdr.myLba = 1) (apart : EntriesApart hdr) :
    ∃ image, gptWrite hdr (encodeEntries entries) Fd.created = some image ∧
      gptWriteOffset hdr = (gptWriteDefaults hdr).partitionEntryLba.toNat * 512 ∧
      gptDetect ⟨image.file, 0, 0⟩ =
        some ⟨gptWrittenHeader hdr (encodeEntries entries), entries.length, encodeEntries entries⟩ := by
  obtain ⟨near, filled, packed, readable⟩ := safe
  have count : (gptWriteDefaults hdr).numPartitionEntries = hdr.numPartitionEntries := if_neg filled
  have stride : (gptWriteDefaults hdr).sizeofPartitionEntry = 128 := by simp [gptWriteDefaults, packed]
  have offset : gptWriteOffset hdr = (gptWriteDefaults hdr).partitionEntryLba.toNat * 512 := by
    rw [gptWriteOffset_eq, Nat.mod_eq_of_lt near]
  have nonempty : 0 < entries.length := by
    rw [← table]
    exact Nat.pos_of_ne_zero fun zero => filled (BitVec.eq_of_toNat_eq zero)
  have behind : 1024 ≤ gptWriteOffset hdr := by
    have positive := gptWriteDefaults_lba_pos hdr
    rw [offset]
    simp only [EntriesApart, packed, table] at apart
    have size : (128 : BitVec 32).toNat = 128 := by decide
    rw [size] at apart
    omega
  have area : ((encodeEntries entries).drop (128 * 0)).take (128 * entries.length) = encodeEntries entries := by
    rw [Nat.mul_zero, List.drop_zero, List.take_of_length_le (by simp)]
  obtain ⟨fd, written, _, file⟩ := gptWriteEntries_packed (encodeEntries entries) entries.length 0
    (gptWriteOffset hdr) (gptWriteMbr Fd.created) (by simp) (by omega)
  rw [area] at file
  have bytes : ((gptWriteDefaults hdr).numPartitionEntries * (gptWriteDefaults hdr).sizeofPartitionEntry).toNat =
      128 * entries.length := by
    have size : (128 : BitVec 32).toNat = 128 := by decide
    rw [count, stride, BitVec.toNat_mul, size, table, Nat.mul_comm]
    exact Nat.mod_eq_of_lt (by omega)
  have stored : (gptWrittenHeader hdr (encodeEntries entries)).partitionEntryArrayCrc32 =
      crc32 0 (encodeEntries entries) := by
    simp only [gptWrittenHeader, bytes]
    rw [List.take_of_length_le (by simp)]
  have block : fd.file.Holds (gptWriteOffset hdr) (encodeEntries entries) := by
    rw [file]
    apply File.writeAt_holds
    intro empty
    have length := congrArg List.length empty
    simp only [encodeEntries_length, List.length_nil] at length
    omega
  have sector0 : ∀ byte, byte < 446 → fd.file.byte byte = 0 := by
    intro byte low
    rw [file, File.writeAt_byte_outside _ _ _ _ (Or.inl (by omega)), gptWriteMbr_created.2.2 byte low]
  have primary := gptWrittenHeader_primary hdr (encodeEntries entries) fd sector0
  refine ⟨_, (gptWrite_some lba).mpr ⟨fd, ?_, ?_, rfl⟩, offset, ?_⟩
  · rw [stride, count, table]
    exact written
  · rw [bytes, encodeEntries_length]
  obtain ⟨reader, same, _, detected⟩ := primary.gptDetect
  have location : (lba2sz64 (gptWrittenHeader hdr (encodeEntries entries)).partitionEntryLba).toNat =
      gptWriteOffset hdr := by
    have factor : (512 : BitVec 64).toNat = 512 := by decide
    rw [offset, lba2sz64, BitVec.toNat_mul, factor]
    exact Nat.mod_eq_of_lt (by simp only [gptWrittenHeader]; omega)
  have kept : reader.file.Holds (gptWriteOffset hdr) (encodeEntries entries) := by
    rw [same, Fd.write_file, Fd.lseek64_file, Fd.lseek64_pos _ _ (by decide)]
    apply block.mono (File.size_le_writeAt _ _ _)
    intro byte low _
    exact File.writeAt_byte_outside _ _ _ _ (Or.inr (by rw [GptHeader.encode_length]; omega))
  have loaded : gptRetryEntries (gptWrittenHeader hdr (encodeEntries entries)) 0 512 [0, 1, 2] reader =
      some (encodeEntries entries) := by
    apply gptRetryEntries_first
    · show _ = (gptWriteDefaults hdr).sizeofPartitionEntry.toNat * (gptWriteDefaults hdr).numPartitionEntries.toNat
      rw [stride, count, table, encodeEntries_length]
      rfl
    · rw [encodeEntries_length]
      omega
    · rw [location]
      omega
    · rw [location]
      exact kept
    · exact stored.symm
  rw [detected, loaded, Option.map_some]
  have many : (gptWrittenHeader hdr (encodeEntries entries)).numPartitionEntries.toNat = entries.length := by
    rw [← table, ← count]
    rfl
  rw [many]

theorem GptWriteSafe.meets (safe : GptWriteSafe hdr) (table : hdr.numPartitionEntries.toNat = entries.length)
    (lba : hdr.myLba = 0 ∨ hdr.myLba = 1) (apart : EntriesApart hdr) : GptWriteMeets hdr entries := by
  obtain ⟨image, written, offset, detected⟩ := safe.loaded table lba apart
  exact ⟨image, written, offset, _, detected, decodeEntries_encodeEntries entries⟩

theorem GptWriteMeets.safe (meets : GptWriteMeets hdr entries)
    (table : hdr.numPartitionEntries.toNat = entries.length) (lba : hdr.myLba = 0 ∨ hdr.myLba = 1)
    (wide : 128 ≤ hdr.sizeofPartitionEntry.toNat) (apart : EntriesApart hdr) : GptWriteSafe hdr := by
  obtain ⟨image, written, location, loaded, detected, same⟩ := meets
  obtain ⟨fd, entriesWritten, checksummed, rfl⟩ := (gptWrite_some lba).mp written
  have near : (gptWriteDefaults hdr).partitionEntryLba.toNat < 2 ^ 23 := by
    rw [gptWriteOffset_eq] at location
    omega
  have filled : hdr.numPartitionEntries ≠ 0 := by
    intro zero
    have many : (gptWriteDefaults hdr).numPartitionEntries.toNat ≠ 0 := by
      simp only [gptWriteDefaults, zero, if_true]
      decide
    have inside := gptWriteEntries_inside entriesWritten many
    rw [encodeEntries_length, ← table, zero] at inside
    simp at inside
    exact many (by omega)
  have stride : (gptWriteDefaults hdr).sizeofPartitionEntry = hdr.sizeofPartitionEntry := by
    apply if_neg
    intro zero
    rw [zero] at wide
    exact absurd wide (by decide)
  have count : (gptWriteDefaults hdr).numPartitionEntries = hdr.numPartitionEntries := if_neg filled
  have positive : 0 < hdr.numPartitionEntries.toNat :=
    Nat.pos_of_ne_zero fun zero => filled (BitVec.eq_of_toNat_eq zero)
  have behind : 1024 ≤ gptWriteOffset hdr := by
    have lbaPositive := gptWriteDefaults_lba_pos hdr
    have area : 0 < hdr.sizeofPartitionEntry.toNat * hdr.numPartitionEntries.toNat :=
      Nat.mul_pos (by omega) positive
    rw [location]
    simp only [EntriesApart] at apart
    have least : 128 * 1 ≤ hdr.sizeofPartitionEntry.toNat * hdr.numPartitionEntries.toNat :=
      Nat.mul_le_mul wide positive
    omega
  rw [stride, count] at entriesWritten checksummed
  have product : hdr.numPartitionEntries.toNat * hdr.sizeofPartitionEntry.toNat ≤ (2 ^ 32 - 1) * (2 ^ 32 - 1) :=
    Nat.mul_le_mul (Nat.le_pred_of_lt hdr.numPartitionEntries.isLt) (Nat.le_pred_of_lt hdr.sizeofPartitionEntry.isLt)
  obtain ⟨_, _, frame⟩ := gptWriteEntries_frame entriesWritten behind
    (by omega) (Or.inl (by omega))
  have sector0 : ∀ byte, byte < 446 → fd.file.byte byte = 0 := by
    intro byte low
    rw [frame byte (by omega), gptWriteMbr_created.2.2 byte low]
  have primary := gptWrittenHeader_primary hdr (encodeEntries entries) fd sector0
  obtain ⟨reader, _, _, result⟩ := primary.gptDetect
  rw [result] at detected
  obtain ⟨partitions, read, _⟩ := Option.map_eq_some_iff.mp detected
  have readable := gptRetryEntries_small read
  have small : hdr.sizeofPartitionEntry.toNat * hdr.numPartitionEntries.toNat ≤ 0x7ffff000 := by
    rw [← stride, ← count]
    exact readable
  have packed : hdr.sizeofPartitionEntry.toNat = 128 := by
    rw [BitVec.toNat_mul, Nat.mul_comm, Nat.mod_eq_of_lt (by omega), encodeEntries_length, ← table] at checksummed
    exact Nat.le_antisymm (Nat.le_of_mul_le_mul_right checksummed positive) wide
  refine ⟨near, filled, BitVec.eq_of_toNat_eq packed, ?_⟩
  rw [packed] at small
  omega

/-- The written image is accepted and loads to the same entries exactly for tables of packed entries
below 4 GiB that one read can load. -/
theorem gptWrite_exact (hdr : GptHeader) (entries : List GptEntry)
    (table : hdr.numPartitionEntries.toNat = entries.length) (lba : hdr.myLba = 0 ∨ hdr.myLba = 1)
    (wide : 128 ≤ hdr.sizeofPartitionEntry.toNat) (apart : EntriesApart hdr) :
    GptWriteMeets hdr entries ↔ GptWriteSafe hdr :=
  ⟨fun meets => meets.safe table lba wide apart, fun safe => safe.meets table lba apart⟩

end Exact

def gptSample (lba : BitVec 64) : GptHeader :=
  { GptHeader.zero with
    alternateLba := 204799
    firstUsableLba := 34
    lastUsableLba := 204766
    partitionEntryLba := lba
    numPartitionEntries := 1
    sizeofPartitionEntry := 128 }

def gptSampleEntry : GptEntry := { GptEntry.zero with startingLba := 34, endingLba := 2047 }

theorem gptWrite_exact_sector2 : GptWriteMeets (gptSample 2) [gptSampleEntry] :=
  (gptWrite_exact (gptSample 2) [gptSampleEntry] (by decide) (by decide) (by decide) (by
    unfold EntriesApart
    decide)).mpr ⟨by decide, by decide, by decide, by decide⟩

/-- The entries of sector 2^23 are written over the protective MBR in sector 0. -/
theorem gptWrite_wrapped : EntriesApart (gptSample 0x800000) ∧ gptWriteOffset (gptSample 0x800000) = 0 ∧
    ¬ GptWriteMeets (gptSample 0x800000) [gptSampleEntry] := by
  have offset : gptWriteOffset (gptSample 0x800000) = 0 := by decide
  refine ⟨?_, offset, ?_⟩
  · unfold EntriesApart
    decide
  · rintro ⟨_, _, location, _⟩
    rw [offset] at location
    exact absurd location (by decide)

end ImgEditor
