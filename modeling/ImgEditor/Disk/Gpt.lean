import ImgEditor.Core.Dd
import ImgEditor.Disk.GptFormat

namespace ImgEditor

open Storage

def GPT_DEF_PART_ENTRY_LBA : BitVec 64 := 2
def GPT_MAX_NUM_PARTS : BitVec 32 := 128
def GPT_HEADER_REVISION_V1 : BitVec 32 := 0x00010000

/-- `"EFI PART"` as the little-endian field holds it. -/
def gptSignature : BitVec 64 := 0x5452415020494645

def DOS_PART_TBL_OFFSET : Nat := 0x1be
def DOS_PART_MAGIC_OFFSET : Nat := 0x1fe

def lba2sz64 (lba : BitVec 64) : BitVec 64 := lba * 512

/-- `lba2sz` of a 32 bit sector number, which multiplies in 32 bits. -/
def lba2sz32 (lba : BitVec 32) : BitVec 32 := lba * 512

def gptHeaderCalcCrc32 (hdr : GptHeader) : BitVec 32 :=
  crc32 0 { hdr with headerCrc32 := 0 }.encode

/-- A loaded table. `partitions` is the memory behind `p->partitions`. -/
structure GptTable where
  hdr : GptHeader
  numPartitionEntries : Nat
  partitions : List Byte

def GptTable.entries (p : GptTable) : List GptEntry := decodeEntries p.numPartitionEntries p.partitions

def GptEntry.Used (e : GptEntry) : Prop := e.startingLba ≠ 0 ∧ e.endingLba ≠ 0

instance (e : GptEntry) : Decidable e.Used := inferInstanceAs (Decidable (_ ∧ _))

/-- `gpt_load_entries`: the array at byte `entry`, or none, and the descriptor afterwards. -/
def gptLoadEntries (hdr : GptHeader) (entry : BitVec 64) (fd : Fd) : Option (List Byte) × Fd :=
  let fd := fd.lseek64 entry.toNat
  let partitionEntriesSz := hdr.sizeofPartitionEntry.toNat * hdr.numPartitionEntries.toNat
  let (bytes, fd) := fd.read partitionEntriesSz
  if bytes.length ≠ partitionEntriesSz then (none, fd)
  else if crc32 0 bytes ≠ hdr.partitionEntryArrayCrc32 then (none, fd)
  else (some bytes, fd)

/-- The three places where `gpt_detect` looks for the entries of a header at `gptOffset`. -/
def gptEntriesOffset (hdr : GptHeader) (start gptOffset : Nat) : Nat → BitVec 64
  | 0 => lba2sz64 hdr.partitionEntryLba
  | 1 => lba2sz64 (hdr.partitionEntryLba - hdr.myLba) + BitVec.ofNat 64 (start + gptOffset)
  | _ => lba2sz64 1 + BitVec.ofNat 64 (start + gptOffset)

def gptRetryEntries (hdr : GptHeader) (start gptOffset : Nat) : List Nat → Fd → Option (List Byte)
  | [], _ => none
  | retry :: rest, fd =>
    match gptLoadEntries hdr (gptEntriesOffset hdr start gptOffset retry) fd with
    | (some partitions, _) => some partitions
    | (none, fd) => gptRetryEntries hdr start gptOffset rest fd

/-- A read into `p->hdr`; what it does not fill keeps its old bytes. -/
def gptReadHeader (old : List Byte) (gptOffset : Nat) (fd : Fd) : List Byte × Fd :=
  let (bytes, fd) := (fd.fileseek gptOffset).read 92
  (bytes ++ old.drop bytes.length, fd)

def gptDetect (fd : Fd) : Option GptTable :=
  let (first, fd) := gptReadHeader (List.replicate 92 0) 0 fd
  let (bytes, gptOffset, fd) :=
    if (GptHeader.decode first).signature = gptSignature then (first, 0, fd)
    else
      let (second, fd) := gptReadHeader first 512 fd
      (second, 512, fd)
  let hdr := GptHeader.decode bytes
  if hdr.signature ≠ gptSignature then none
  else if hdr.headerSize ≠ 92 then none
  else if gptHeaderCalcCrc32 hdr ≠ hdr.headerCrc32 then none
  else
    match gptRetryEntries hdr fd.start gptOffset [0, 1, 2] fd with
    | none => none
    | some partitions => some ⟨hdr, hdr.numPartitionEntries.toNat, partitions⟩

def gptMbr : List Byte := [0, 0, 0x02, 0, 0xee, 0xff, 0xff, 0xff, 1, 0, 0, 0, 0xff, 0xff, 0xff, 0xff]

def gptWriteMbr (fd : Fd) : Fd :=
  let fd := (fd.lseek64 DOS_PART_TBL_OFFSET).write gptMbr
  (fd.lseek64 DOS_PART_MAGIC_OFFSET).write [0x55, 0xaa]

/-- The values that `gpt_write` puts in for zero fields. -/
def gptWriteDefaults (hdr : GptHeader) : GptHeader :=
  { hdr with
    myLba := if hdr.myLba = 0 then 1 else hdr.myLba
    partitionEntryLba := if hdr.partitionEntryLba = 0 then GPT_DEF_PART_ENTRY_LBA else hdr.partitionEntryLba
    sizeofPartitionEntry := if hdr.sizeofPartitionEntry = 0 then 128 else hdr.sizeofPartitionEntry
    numPartitionEntries := if hdr.numPartitionEntries = 0 then GPT_MAX_NUM_PARTS else hdr.numPartitionEntries }

/-- The loop that writes the entries `i`, `i + 1`, ... at `offset`; none when it leaves the array. -/
def gptWriteEntries (partitions : List Byte) (sizeofPartitionEntry : Nat) : Nat → Nat → Nat → Fd → Option Fd
  | 0, _, _, fd => some fd
  | count + 1, i, offset, fd =>
    if 128 * (i + 1) ≤ partitions.length then
      gptWriteEntries partitions sizeofPartitionEntry count (i + 1) ((offset + sizeofPartitionEntry) % 2 ^ 64)
        ((fd.lseek64 offset).write ((partitions.drop (128 * i)).take 128))
    else none

/-- The byte offset of the entries, computed from the low 32 bits of the LBA. -/
def gptWriteOffset (hdr : GptHeader) : Nat :=
  (lba2sz32 ((gptWriteDefaults hdr).partitionEntryLba.truncate 32)).toNat

/-- `gpt_write`, with the array of `p->partitions`; none where it reads memory behind the array. -/
def gptWrite (hdr : GptHeader) (partitions : List Byte) (fd : Fd) : Option Fd := do
  let offset := gptWriteOffset hdr
  let hdr := gptWriteDefaults hdr
  let fd := if (hdr.myLba.truncate 32).toNat > 0 then gptWriteMbr fd else fd
  let hdr := { hdr with
    signature := gptSignature
    revision := GPT_HEADER_REVISION_V1
    headerSize := 92 }
  let fd ← gptWriteEntries partitions hdr.sizeofPartitionEntry.toNat hdr.numPartitionEntries.toNat 0 offset fd
  let partitionEntriesSz := (hdr.numPartitionEntries * hdr.sizeofPartitionEntry).toNat
  if partitionEntriesSz ≤ partitions.length then
    let hdr := { hdr with partitionEntryArrayCrc32 := crc32 0 (partitions.take partitionEntriesSz) }
    let fd := fd.lseek64 (lba2sz32 (hdr.myLba.truncate 32)).toNat
    let hdr := { hdr with headerCrc32 := gptHeaderCalcCrc32 hdr }
    return fd.write hdr.encode
  else none

end ImgEditor
