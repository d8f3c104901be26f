import ImgEditor.Fs.Ext2Blocks
import ImgEditor.Fs.Ext2Extents
import ImgEditor.Fs.Ext2Layouts

namespace ImgEditor

open Storage

def storedDescriptor (p : Ext2PrivateData) (g : Nat) : List Byte :=
  let size := ext2DescriptorSize p.sblock
  descriptorAt p.fd.file (p.fd.start + (sbFirstDataBlock p.sblock + 1) * p.blockSize + g * size) size

def inodeDescriptor (p : Ext2PrivateData) (ino : Nat) : List Byte :=
  storedDescriptor p ((ino - 1) / sbInodesPerGroup p.sblock)

def storedInode (p : Ext2PrivateData) (ino : Nat) : Option (List Byte) :=
  let table := bgInodeTableId (inodeDescriptor p ino) * p.blockSize
  let inode := p.fd.file.readAt (p.fd.start + table + (ino - 1) % sbInodesPerGroup p.sblock * p.inodeSize) sizeofExt2Inode
  if inode.length = sizeofExt2Inode then some inode else none

def inodeInUse (p : Ext2PrivateData) (ino : Nat) : Bool :=
  let index := (ino - 1) % sbInodesPerGroup p.sblock
  (p.fd.file.byte (p.fd.start + bgInodeId (inodeDescriptor p ino) * p.blockSize + index / 8)).getLsbD (index % 8)

def sizeofSymlink : Nat := 60

/-- A regular file, a directory, or a symlink that is too long for the inode. -/
def InodeSearched (inode : List Byte) : Prop :=
  let type := inodeMode inode &&& INODE_MODE_S_MASK
  type = INODE_MODE_S_IFREG ∨ type = INODE_MODE_S_IFDIR ∨ type = INODE_MODE_S_IFLINK ∧ sizeofSymlink ≤ inodeSize64 inode

instance (inode : List Byte) : Decidable (InodeSearched inode) := inferInstanceAs (Decidable (_ ∨ _ ∨ _ ∧ _))

def inodeMapRoots (inode : List Byte) : List (Nat × Nat) :=
  (inodeDirBlocks inode).map (fun n => (0, n)) ++ inodeIndirRoots inode

def MapRefers (p : Ext2Editor) (inode : List Byte) (blk : Nat) : Prop :=
  ∃ root ∈ inodeMapRoots inode, root.2 ≠ 0 ∧ (ext2Index p).Holds root.1 root.2 blk

def ExtentsRefer (p : Ext2Editor) (inode : List Byte) (blk : Nat) : Prop :=
  ∃ depth tree, ExtentsAt p depth tree (field inode 40 60) ∧ (blk ∈ tree.keys depth ∨
    ∃ ee ∈ tree.leaves depth, ext4ExtentStartBlock ee ≤ blk ∧ blk < ext4ExtentStartBlock ee + extentBlocks ee)

def InodeRefers (p : Ext2Editor) (inode : List Byte) (blk : Nat) : Prop :=
  if inodeFlags inode &&& EXT4_EXTENTS_FL = 0 then MapRefers p inode blk else ExtentsRefer p inode blk

def FileRefers (p : Ext2PrivateData) (ino blk : Nat) : Prop :=
  ∃ inode, storedInode p ino = some inode ∧ InodeRefers p.toExt2Editor inode blk

/-- An inode in use of a kind that has blocks. -/
def FileInUse (p : Ext2PrivateData) (ino : Nat) : Prop :=
  1 ≤ ino ∧ ino ≤ sbTotalInodes p.sblock ∧ inodeInUse p ino = true ∧
    ∃ inode, storedInode p ino = some inode ∧ InodeSearched inode

end ImgEditor
