import ImgEditor.Core.Bitmask
import ImgEditor.Core.Dd
import ImgEditor.Core.Libcrc

namespace ImgEditor

open Storage

def F2FS_SUPER_MAGIC : Nat := 0xF2F52010
def F2FS_SUPER_OFFSET : Nat := 1024
def F2FS_BLKSIZE : Nat := 4096
def F2FS_MAX_EXTENSION : Nat := 64
def F2FS_FEATURE_SB_CHKSUM : Nat := 0x0800
def F2FS_DATA_EXIST : Nat := 0x08
def DEF_ADDRS_PER_INODE : Nat := 923
def DEF_NIDS_PER_INODE : Nat := 5
def DEF_ADDRS_PER_BLOCK : Nat := 1018
def NIDS_PER_BLOCK : Nat := 1018
def NAT_ENTRY_PER_BLOCK : Nat := 455

def sizeofF2fsSuperBlock : Nat := 3072

structure F2fsSegment where
  blockSize : Nat
  blocks : Nat
  buffer : List Byte

structure F2fsEditor where
  fd : Fd
  sblock : List Byte
  checkpoint : List Byte
  nat : F2fsSegment
  sectorSize : Nat
  blockSize : Nat
  blocksPerSegment : Nat
  segmentSize : Nat

def f2fsReadBlocks (p : F2fsEditor) (blkno nblks bufsz : Nat) : Option (List Byte) :=
  let sz := min (p.blockSize * nblks % 2^32) bufsz
  let buf := ((p.fd.fileseek (blkno * p.blockSize % 2^64)).read sz).1
  if buf.length = 0 ∨ buf.length ≠ sz then none else some buf

def f2fsAllocReadBlocks (f2fs : F2fsEditor) (blkno nblks : Nat) : Option (List Byte) :=
  f2fsReadBlocks f2fs blkno nblks (f2fs.blockSize * nblks % 2^32)

def f2fsAllocReadBlock (f2fs : F2fsEditor) (blkno : Nat) : Option (List Byte) := f2fsAllocReadBlocks f2fs blkno 1

def f2fsAllocReadSegment (f2fs : F2fsEditor) (blkaddr segmentCount : Nat) : Option F2fsSegment := do
  let totalBytes := segmentCount * f2fs.segmentSize % 2^32
  let blocks := segmentCount * f2fs.blocksPerSegment % 2^32
  let buffer ← f2fsReadBlocks f2fs blkaddr blocks totalBytes
  return ⟨f2fs.blockSize, blocks, buffer⟩

/-- `crc32_algo` as `f2fs_editor_init` leaves it. -/
def f2fsCrc32Algo : Libcrc 32 :=
  Libcrc.libcrc32Init (Libcrc.defineLibcrcAlgo 0x04C11DB7 0xF2F52010 0 true true)

def f2fsSuperBlockCheckCrc (crc : Libcrc 32) (sb : List Byte) : Bool :=
  if leField sb 2180 4 &&& F2FS_FEATURE_SB_CHKSUM = 0 then true
  else if leField sb 32 4 ≠ 3068 then false
  else
    let crc := Libcrc.libcrc32Update (Libcrc.libcrc32Init crc) (sb.take (leField sb 32 4))
    (Libcrc.libcrc32Finish crc).toNat = leField sb 3068 4

def f2fsDetect (fd : Fd) : Option F2fsEditor := do
  let sb ← fileread (fd.fileseek F2FS_SUPER_OFFSET) sizeofF2fsSuperBlock
  guard (leField sb 0 4 = F2FS_SUPER_MAGIC)
  guard (leField sb 4 2 < 2)
  guard (leField sb 6 2 < 100)
  guard (leField sb 8 4 < 20)
  guard (leField sb 12 4 < 20)
  guard (leField sb 20 4 < 20)
  guard (leField sb 1148 4 < F2FS_MAX_EXTENSION)
  guard (leField sb 8 4 + leField sb 12 4 = leField sb 16 4)
  guard (f2fsSuperBlockCheckCrc f2fsCrc32Algo sb)
  -- an int is shifted, by its count modulo 32
  let blockSize := 2 ^ (leField sb 16 4 % 32)
  let blocksPerSegment := 2 ^ leField sb 20 4
  let f2fs : F2fsEditor := ⟨fd, sb, [], ⟨0, 0, []⟩, 2 ^ leField sb 8 4, blockSize, blocksPerSegment,
    blockSize * blocksPerSegment % 2^32⟩
  guard (f2fs.blockSize = F2FS_BLKSIZE)
  let checkpoint ← f2fsAllocReadBlock f2fs (leField sb 76 4)
  let nat ← f2fsAllocReadSegment f2fs (leField sb 84 4) (leField sb 60 4)
  return { f2fs with checkpoint := checkpoint, nat := nat }

structure F2fsNatEntry where
  ino : Nat
  blockAddr : Nat
deriving DecidableEq

/-- The entry at an offset of the NAT buffer, `none` where that leaves the buffer. -/
def f2fsNatEntryAt (nat : F2fsSegment) (offset : Nat) : Option F2fsNatEntry :=
  if offset + 9 ≤ nat.buffer.length then some ⟨leField nat.buffer (offset + 1) 4, leField nat.buffer (offset + 5) 4⟩
  else none

/-- The offsets of the NAT entries in the order of the two loops of `f2fs_get_inode_block`. -/
def f2fsNatOffsets (nat : F2fsSegment) : List Nat :=
  (List.range nat.blocks).flatMap fun i => (List.range NAT_ENTRY_PER_BLOCK).map fun j => i * nat.blockSize + 9 * j

def f2fsGetInodeBlock (f2fs : F2fsEditor) (ino : Nat) : Option Nat := do
  let found ← ((f2fsNatOffsets f2fs.nat).map (f2fsNatEntryAt f2fs.nat)).find? fun entry =>
    entry.all fun entry => entry.ino = ino
  let entry ← found
  return entry.blockAddr

def f2fsAllocReadInode (f2fs : F2fsEditor) (ino : Nat) : Option (List Byte) := do
  let blkno ← f2fsGetInodeBlock f2fs ino
  f2fsAllocReadBlock f2fs blkno

def f2fsGetNatEntry (f2fs : F2fsEditor) (nid : Nat) : Option F2fsNatEntry :=
  if f2fs.nat.blocks * NAT_ENTRY_PER_BLOCK ≤ nid then none
  else f2fsNatEntryAt f2fs.nat (nid / NAT_ENTRY_PER_BLOCK * f2fs.blockSize + 9 * (nid % NAT_ENTRY_PER_BLOCK))

/-! Fields of `struct f2fs_inode`. -/

def iInline (inode : List Byte) : Nat := leField inode 3 1
def iSize (inode : List Byte) : Nat := leField inode 16 8
def iAddr (inode : List Byte) (i : Nat) : Nat := leField inode (360 + 4 * i) 4
def iNid (inode : List Byte) (i : Nat) : Nat := leField inode (4052 + 4 * i) 4

/-- `struct f2fs_inode_blocks`, with the bitmask that its readers set bits in. -/
structure F2fsInodeBlocks where
  blocks : List Nat
  indirBlocks : Option Bitmask

def F2fsInodeBlocks.mark (b : F2fsInodeBlocks) (blkno : Nat) : F2fsInodeBlocks :=
  { b with indirBlocks := b.indirBlocks.map fun mask => (mask.set blkno).2 }

def f2fsInodeBlocksPush (b : F2fsInodeBlocks) (blkno : Nat) : Option F2fsInodeBlocks :=
  some { b.mark blkno with blocks := b.blocks ++ [blkno] }

def f2fsNodeWords (blkbuf : List Byte) (maxcount : Nat) : List Nat :=
  (List.range maxcount).map fun i => leField blkbuf (4 * i) 4

def f2fsInodeReadBlock (f2fs : F2fsEditor) (todo : F2fsInodeBlocks → Nat → Option F2fsInodeBlocks) (maxcount : Nat)
    (b : F2fsInodeBlocks) (nid : Nat) : Option F2fsInodeBlocks := do
  let entry ← f2fsGetNatEntry f2fs nid
  let blkbuf ← f2fsAllocReadBlock f2fs entry.blockAddr
  (f2fsNodeWords blkbuf maxcount).foldlM (fun b n => if n = 0 then some b else todo (b.mark n) n)
    (b.mark entry.blockAddr)

def f2fsInodeDirectBlocksPush (f2fs : F2fsEditor) : F2fsInodeBlocks → Nat → Option F2fsInodeBlocks :=
  f2fsInodeReadBlock f2fs f2fsInodeBlocksPush DEF_ADDRS_PER_BLOCK

def f2fsInodeIndirectBlocksPush (f2fs : F2fsEditor) : F2fsInodeBlocks → Nat → Option F2fsInodeBlocks :=
  f2fsInodeReadBlock f2fs (f2fsInodeDirectBlocksPush f2fs) NIDS_PER_BLOCK

def f2fsInodeDoubleIndirectBlocksPush (f2fs : F2fsEditor) : F2fsInodeBlocks → Nat → Option F2fsInodeBlocks :=
  f2fsInodeReadBlock f2fs (f2fsInodeIndirectBlocksPush f2fs) NIDS_PER_BLOCK

def f2fsInodeNidPush (f2fs : F2fsEditor) (b : F2fsInodeBlocks) (i nid : Nat) : Option F2fsInodeBlocks :=
  if nid = 0 then some b
  else
    match i with
    | 0 | 1 => f2fsInodeDirectBlocksPush f2fs b nid
    | 2 | 3 => f2fsInodeIndirectBlocksPush f2fs b nid
    | 4 => f2fsInodeDoubleIndirectBlocksPush f2fs b nid
    | _ => some b

def f2fsInodeBlocksReadMarked (f2fs : F2fsEditor) (b : F2fsInodeBlocks) (inode : List Byte) : Option F2fsInodeBlocks := do
  let b ← (List.range DEF_ADDRS_PER_INODE).foldlM
    (fun b i => if iAddr inode i = 0 then some b else f2fsInodeBlocksPush b (iAddr inode i)) b
  (List.range DEF_NIDS_PER_INODE).foldlM (fun b i => f2fsInodeNidPush f2fs b i (iNid inode i)) b

def f2fsInodeBlocksRead (f2fs : F2fsEditor) (inode : List Byte) : Option (List Nat) :=
  (f2fsInodeBlocksReadMarked f2fs ⟨[], none⟩ inode).map F2fsInodeBlocks.blocks

/-- The loop of `unpack_reg_file` over the blocks: the return value and the descriptor of the file. -/
def unpackRegFileBlocks (f2fs : F2fsEditor) : List Nat → Nat → Fd → Int × Fd
  | [], _, fd => (0, fd)
  | blkno :: rest, totalSize, fd =>
    if totalSize = 0 then (0, fd)
    else if blkno = 0 then unpackRegFileBlocks f2fs rest totalSize fd
    else
      let chunkSz := min totalSize f2fs.blockSize
      match f2fsReadBlocks f2fs blkno 1 f2fs.blockSize with
      | none => (-1, fd)
      | some blkbuf => unpackRegFileBlocks f2fs rest (totalSize - chunkSz) (fd.write (blkbuf.take chunkSz))

/-- `none` when there is no inode, and no file is created. -/
def unpackRegFile (f2fs : F2fsEditor) (ino : Nat) : Option (Int × Fd) := do
  let inode ← f2fsAllocReadInode f2fs ino
  let fd := Fd.created
  let totalSize := iSize inode
  if totalSize = 0 then return (0, fd)
  if iInline inode &&& F2FS_DATA_EXIST ≠ 0 then
    let maxsz := 4 * DEF_ADDRS_PER_INODE - 4
    if maxsz < totalSize then return (-1, fd)
    return (0, fd.write ((inode.drop 364).take totalSize))
  match f2fsInodeBlocksRead f2fs inode with
  | none => return (-1, fd)
  | some blocks => return unpackRegFileBlocks f2fs blocks totalSize fd

end ImgEditor
