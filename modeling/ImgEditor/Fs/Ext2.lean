import ImgEditor.Core.Bitmask
import ImgEditor.Core.Memory
import ImgEditor.Core.Dd

namespace ImgEditor

open Storage

/-- `struct ext2_editor_private_data`, as far as inodes and blocks are read with it. -/
structure Ext2Editor where
  fd : Fd
  blockSize : Nat
  inodeSize : Nat
  nBlockGroup : Nat
  inodesPerGroup : Nat
  inodeTableId : List Nat

/-- `ext2_inode_block_number`: the block and the offset in it. `none` also where C divides by zero or leaves the
group array. -/
def ext2InodeBlockNumber (p : Ext2Editor) (ino : Nat) : Option (Nat × Nat) :=
  let ino := (ino + 2^32 - 1) % 2^32
  let inodesPerBlock := p.blockSize / p.inodeSize
  if p.inodesPerGroup = 0 ∨ inodesPerBlock = 0 then none
  else
    let idx := ino / p.inodesPerGroup
    if p.nBlockGroup ≤ idx then none
    else
      match p.inodeTableId[idx]? with
      | none => none
      | some inodeTableId =>
        some ((inodeTableId + ino % p.inodesPerGroup / inodesPerBlock) % 2^32,
          ino % inodesPerBlock * p.inodeSize % 2^32)

def sizeofExt2Inode : Nat := 128

def ext2ReadInode (p : Ext2Editor) (ino : Nat) : Option (List Byte) :=
  match ext2InodeBlockNumber p ino with
  | none => none
  | some (blkno, blkOffset) =>
    let inode := ((p.fd.fileseek ((blkno * p.blockSize + blkOffset) % 2^32)).read sizeofExt2Inode).1
    if inode.length ≠ sizeofExt2Inode then none else some inode

def ext2ReadBlocks (p : Ext2Editor) (blkno nblks bufsz : Nat) : Option (List Byte) :=
  let sz := min (p.blockSize * nblks % 2^32) bufsz
  let buf := ((p.fd.fileseek (blkno * p.blockSize % 2^64)).read sz).1
  if buf.length = 0 ∨ buf.length ≠ sz then none else some buf

def EXT4_EXTENTS_FL : Nat := 0x00080000
def EXT4_EXT_MAGIC : Nat := 0xf30a

/-! Fields of `struct ext4_extent_header`. -/

def ehMagic (eh : Memory) : Nat := memField eh 0 2
def ehEntries (eh : Memory) : Nat := memField eh 2 2
def ehDepth (eh : Memory) : Nat := memField eh 6 2

structure Ext4Extent where
  eeBlock : Nat
  eeLen : Nat
  eeStartHi : Nat
  eeStartLo : Nat
deriving DecidableEq

def ext4ExtentStartBlock (ee : Ext4Extent) : Nat := ee.eeStartHi * 2^32 + ee.eeStartLo

def ext4Extent (eh : Memory) (i : Nat) : Ext4Extent :=
  let offset := 12 + 12 * i
  ⟨memField eh offset 4, memField eh (offset + 4) 2, memField eh (offset + 6) 2, memField eh (offset + 8) 4⟩

def ext4ExtentIdxLeafBlock (eh : Memory) (i : Nat) : Nat :=
  let offset := 12 + 12 * i
  memField eh (offset + 8) 2 * 2^32 + memField eh (offset + 4) 4

/-- `struct extent_iterator`; `parent` is `none` when it is `NULL`. `reads` are the blocks read so far. -/
structure ExtentIterator where
  inode : List Byte
  parent : Option (List Ext4Extent)
  totalEntries : Nat
  dataBlocks : Option Bitmask
  reads : List Nat

/-- A negative return value, or a recursion deeper than the fuel. -/
inductive ExtentFail where
  | error
  | unfinished
deriving DecidableEq

abbrev ExtentM := Except ExtentFail

/-- The loop over the index entries of a header, from entry `i` on. -/
def extentIteratorChildren (p : Ext2Editor) (junk : Nat → Memory) (appending : ExtentIterator → Memory → ExtentM ExtentIterator)
    (eh : Memory) (i : Nat) : Nat → ExtentIterator → ExtentM ExtentIterator
  | 0, it => return it
  | count + 1, it =>
    let blkno := ext4ExtentIdxLeafBlock eh i
    match ext2ReadBlocks p blkno 1 p.blockSize with
    | none => throw .error
    | some blk => do
      let ehChild := bufferMemory (junk it.reads.length) blk
      if ehMagic ehChild ≠ EXT4_EXT_MAGIC then throw .error
      if ehDepth ehChild ≠ ehDepth eh - 1 then throw .error
      let it ← appending { it with
        dataBlocks := it.dataBlocks.map fun b => (b.set blkno).2
        reads := it.reads ++ [blkno] } ehChild
      extentIteratorChildren p junk appending eh (i + 1) count it

/-- Append the entries of a leaf. `realloc` of a block to size zero frees it and returns `NULL`. -/
def extentIteratorLeaf (it : ExtentIterator) (eh : Memory) : ExtentM ExtentIterator :=
  let entries := (List.range (ehEntries eh)).map (ext4Extent eh)
  let totalEntries := it.totalEntries + ehEntries eh
  if totalEntries = 0 ∧ it.parent.isSome then throw .error
  else return { it with
    parent := some (it.parent.getD [] ++ entries)
    totalEntries := totalEntries
    dataBlocks := it.dataBlocks.map fun b =>
      entries.foldl (fun b ee => (b.setBits (ext4ExtentStartBlock ee) ee.eeLen).2) b }

/-- `extent_iterator_appending`; the fuel bounds the depth of the recursion. -/
def extentIteratorAppending (p : Ext2Editor) (junk : Nat → Memory) :
    Nat → ExtentIterator → Memory → ExtentM ExtentIterator
  | 0, _, _ => throw .unfinished
  | fuel + 1, it, eh =>
    if 0 < ehDepth eh then
      extentIteratorChildren p junk (extentIteratorAppending p junk fuel) eh 0 (ehEntries eh) it
    else extentIteratorLeaf it eh

/-- The header in the `i_block` of an inode; what lies behind the inode is `junk`. -/
def inodeExtentHeader (junk : Nat → Byte) (inode : List Byte) : Memory := bufferMemory junk (inode.drop 40)

def extentIteratorInit (p : Ext2Editor) (junk : Nat → Memory) (fuel ino : Nat) (dataBlocks : Option Bitmask) :
    ExtentM ExtentIterator :=
  match ext2ReadInode p ino with
  | none => throw .error
  | some inode =>
    let eh := inodeExtentHeader (junk 0) inode
    if leField inode 32 4 &&& EXT4_EXTENTS_FL = 0 then throw .error
    else if ehMagic eh ≠ EXT4_EXT_MAGIC then throw .error
    else if 5 < ehDepth eh then throw .error
    else extentIteratorAppending p junk fuel ⟨inode, none, 0, dataBlocks, []⟩ eh

end ImgEditor
