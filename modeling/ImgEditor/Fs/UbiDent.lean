import ImgEditor.Core.Dd
import ImgEditor.Fs.UbiIndex
import ImgEditor.Fs.UbiPeb

namespace ImgEditor

open Storage

def UBIFS_S_KEY_BLOCK_MASK : BitVec 32 := 0x1FFFFFFF
def UBIFS_BLOCK_SIZE : Nat := 4096

def UBIFS_INO_NODE : Nat := 0
def UBIFS_DATA_NODE : Nat := 1
def UBIFS_DENT_NODE : Nat := 2

def UBIFS_INO_KEY : BitVec 8 := 0
def UBIFS_DATA_KEY : BitVec 8 := 1
def UBIFS_DENT_KEY : BitVec 8 := 2

def UBIFS_COMPR_NONE : Nat := 0
def UBIFS_COMPR_LZO : Nat := 1

inductive UbifsItype where
  | reg
  | dir
  | lnk
  | blk
  | chr
  | fifo
  | sock
deriving DecidableEq, Repr

/-- none from `UBIFS_ITYPES_CNT` on. -/
def UbifsItype.ofByte : Nat → Option UbifsItype
  | 0 => some .reg
  | 1 => some .dir
  | 2 => some .lnk
  | 3 => some .blk
  | 4 => some .chr
  | 5 => some .fifo
  | 6 => some .sock
  | _ => none

/-- A loaded index with what it is read from: `readLeb` gives the data area of a LEB or none, and
`lzo1xDecompressSafe` is the LZO decompressor with the size of its buffer. -/
structure UbiVolume where
  root : UbiBranch
  readLeb : BitVec 32 → Option (List Byte)
  lzo1xDecompressSafe : List Byte → Nat → Option (List Byte)

def ubifsChIsGood (ch : List Byte) (lebSize : Nat) : Bool :=
  decide (leField ch 0 4 = UBIFS_NODE_MAGIC) && decide (leField ch 16 4 + 24 ≤ lebSize) &&
    decide ((BitVec.ofNat 32 (leField ch 4 4)) = ubiCrc32 ((ch.drop 8).take ((leField ch 16 4 + (2^32 - 8)) % 2^32)))

def ubiAllocReadCh (p : UbiVolume) (lnum offset : BitVec 32) : Option (List Byte) := do
  let leb ← p.readLeb lnum
  let ch := leb.drop offset.toNat
  if ubifsChIsGood ch leb.length then some ch else none

def chNodeType (ch : List Byte) : Nat := leField ch 20 1

def ubiAllocReadInode (p : UbiVolume) (ino : BitVec 32) : Option (List Byte) := do
  let leaf ← ubiBptreeFind p.root UBIFS_INO_KEY ino 0 0
  let ch ← ubiAllocReadCh p leaf.selfLnum leaf.selfOffs
  if chNodeType ch = UBIFS_INO_NODE then some ch else none

/-- The data node with its block index. -/
def ubiAllocReadDataNode (p : UbiVolume) (ino minBlkIdx maxBlkIdx : BitVec 32) :
    Option (List Byte × BitVec 32) := do
  let leaf ← ubiBptreeFind p.root UBIFS_DATA_KEY ino minBlkIdx maxBlkIdx
  let ch ← ubiAllocReadCh p leaf.selfLnum leaf.selfOffs
  if chNodeType ch = UBIFS_DATA_NODE then some (ch, leaf.key1 &&& UBIFS_S_KEY_BLOCK_MASK) else none

def ubiDataNodeDecompressNone (dnode : List Byte) (bufSz : Nat) : List Byte :=
  (dnode.drop 48).take (min (leField dnode 40 4) bufSz)

def ubiDataNodeDecompressLzo (p : UbiVolume) (dnode : List Byte) (bufSz : Nat) : Option (List Byte) :=
  p.lzo1xDecompressSafe ((dnode.drop 48).take (leField dnode 16 4 - 48)) bufSz

def ubiDataNodeDecompress (p : UbiVolume) (dnode : List Byte) (bufSz : Nat) : Option (List Byte) :=
  if leField dnode 44 2 = UBIFS_COMPR_NONE then some (ubiDataNodeDecompressNone dnode bufSz)
  else if leField dnode 44 2 = UBIFS_COMPR_LZO then ubiDataNodeDecompressLzo p dnode bufSz
  else none

def ubiListFile (p : UbiVolume) (ino : BitVec 32) : Int :=
  match ubiAllocReadInode p ino with
  | none => -1
  | some _ => 0

def ubiListLink (p : UbiVolume) (ino : BitVec 32) : Int :=
  match ubiAllocReadInode p ino with
  | none => -1
  | some _ => 0

/-- The `while (n < filesz)` loop of `ubi_unpack_file` with the file and the return code it ends
with, or none when the fuel runs out. -/
def unpackBlocks (p : UbiVolume) (ino : BitVec 32) (filesz : Nat) :
    Nat → BitVec 32 → Nat → Fd → Option (Fd × Int)
  | 0, _, _, _ => none
  | fuel + 1, dataBlock, n, fd =>
    if ¬ n < filesz then some (fd, 0)
    else
      match ubiAllocReadDataNode p ino dataBlock 0xffffffff with
      | none => some (fd, 0)
      | some (dnode, blkIdx) =>
        match ubiDataNodeDecompress p dnode UBIFS_BLOCK_SIZE with
        | none => some (fd, -1)
        | some decompress =>
          let chunkSz := leField dnode 40 4
          if decompress.length ≠ chunkSz then some (fd, -1)
          else
            -- the product is taken in 32 bits
            let n := blkIdx.toNat * UBIFS_BLOCK_SIZE % 2^32
            unpackBlocks p ino filesz fuel (blkIdx + 1) (n + chunkSz) ((fd.lseek64 n).write decompress)

def ubiUnpackFile (p : UbiVolume) (fuel : Nat) (ino : BitVec 32) : Option (Fd × Int) :=
  match ubiAllocReadInode p ino with
  | none => some (.created, -1)
  | some inode =>
    let filesz := leField inode 48 8
    if filesz = 0 then some (.created, 0)
    else unpackBlocks p ino filesz fuel 0 0 ((Fd.created.lseek64 (filesz - 1)).write [0#8])

def ubiUnpackLink (p : UbiVolume) (ino : BitVec 32) : Int :=
  match ubiAllocReadInode p ino with
  | none => -1
  | some _ => 0

structure UbifsDent where
  inum : BitVec 32
  itype : UbifsItype
deriving DecidableEq, Repr

/-- The directory entry node of a leaf, or none where the loops return -1 before they touch it. -/
def readDent (p : UbiVolume) (leaf : UbiLeafNode) : Option UbifsDent := do
  let ch ← ubiAllocReadCh p leaf.selfLnum leaf.selfOffs
  if chNodeType ch ≠ UBIFS_DENT_NODE then none
  else
    let itype ← UbifsItype.ofByte (leField ch 49 1)
    return { inum := BitVec.ofNat 32 (leField ch 40 8), itype }

def nextHashMin (leaf : UbiLeafNode) : BitVec 32 :=
  if leaf.key1 &&& UBIFS_S_KEY_BLOCK_MASK = UBIFS_S_KEY_BLOCK_MASK then UBIFS_S_KEY_BLOCK_MASK
  else (leaf.key1 + 1) &&& UBIFS_S_KEY_BLOCK_MASK

/-- What differs between the two loops: whether a directory is entered, and the operation on any
other entry, none when it runs out of fuel. -/
structure DentOps where
  enter : UbifsDent → Bool
  entry : Nat → UbifsDent → Option Int

/-- The loop over the entries of one directory from `hashMin` on: the leaves it visits and its
return code, or none when the fuel runs out. -/
def dentLoop (p : UbiVolume) (ops : DentOps) : Nat → BitVec 32 → BitVec 32 → Option (List UbiLeafNode × Int)
  | 0, _, _ => none
  | fuel + 1, ino, hashMin =>
    match ubiBptreeFind p.root UBIFS_DENT_KEY ino hashMin 0xffffffff with
    | none => some ([], 0)
    | some leaf =>
      match readDent p leaf with
      | none => some ([], -1)
      | some dent =>
        let own :=
          if dent.itype = .dir then
            if ops.enter dent then dentLoop p ops fuel dent.inum 0 else some ([], -1)
          else (ops.entry fuel dent).map fun ret => ([], ret)
        match own with
        | none => none
        | some (below, ret) =>
          if ret < 0 then some (leaf :: below, ret)
          else
            match dentLoop p ops fuel ino (nextHashMin leaf) with
            | none => none
            | some (rest, ret) => some (leaf :: below ++ rest, ret)

def listOps (p : UbiVolume) : DentOps where
  enter := fun _ => true
  entry := fun _ dent =>
    match dent.itype with
    | .reg => some (ubiListFile p dent.inum)
    | .lnk => some (ubiListLink p dent.inum)
    | _ => some 0

def unpackOps (p : UbiVolume) : DentOps where
  enter := fun dent => (ubiAllocReadInode p dent.inum).isSome
  entry := fun fuel dent =>
    match dent.itype with
    | .reg => (ubiUnpackFile p fuel dent.inum).map Prod.snd
    | .lnk => some (ubiUnpackLink p dent.inum)
    | _ => some (-1)

def ubiListDent (p : UbiVolume) (fuel : Nat) (ino : BitVec 32) : Option (List UbiLeafNode × Int) :=
  dentLoop p (listOps p) fuel ino 0

def ubiUnpackDent (p : UbiVolume) (fuel : Nat) (ino : BitVec 32) : Option (List UbiLeafNode × Int) :=
  dentLoop p (unpackOps p) fuel ino 0

/-- Both start at the root inode. -/
def ubiList (p : UbiVolume) (fuel : Nat) : Option (List UbiLeafNode × Int) := ubiListDent p fuel 1

def ubiUnpack (p : UbiVolume) (fuel : Nat) : Option (List UbiLeafNode × Int) := ubiUnpackDent p fuel 1

end ImgEditor
