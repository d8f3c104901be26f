import ImgEditor.Fs.F2fs
import ImgEditor.Core.Bitmask
import ImgEditor.Core.Memory
import ImgEditor.Storage.TreeWalk

namespace ImgEditor

open Storage

def F2FS_SLOT_LEN : Nat := 8
def F2FS_NAME_LEN : Nat := 255
def NR_DENTRY_IN_BLOCK : Nat := 214
def SIZE_OF_DENTRY_BITMAP : Nat := 27
def F2FS_FT_DIR : Nat := 2
def F2FS_FT_MAX : Nat := 8

structure F2fsDirEntry where
  hashCode : Nat
  ino : Nat
  nameLen : Nat
  fileType : Nat
deriving DecidableEq

/-! Places in a `struct f2fs_dentry_block`. -/

def dentryOffset (i : Nat) : Nat := 30 + 11 * i
def filenameOffset (i : Nat) : Nat := 2384 + F2FS_SLOT_LEN * i

def f2fsDirEntry (dblk : Memory) (i : Nat) : F2fsDirEntry :=
  let dentry := dentryOffset i
  ⟨memField dblk dentry 4, memField dblk (dentry + 4) 4, memField dblk (dentry + 8) 2, memField dblk (dentry + 10) 1⟩

def dentryBitmap (dblk : Memory) : Bitmask :=
  ((allocBitmask (SIZE_OF_DENTRY_BITMAP * 8)).memcpyLsbfirst ((List.range SIZE_OF_DENTRY_BITMAP).map dblk)).2

/-- The slots that the inner loop of `_foreach_dirent` comes to. -/
def dentrySlots (dblk : Memory) : List Nat := (dentryBitmap dblk).foreach.takeWhile (· < NR_DENTRY_IN_BLOCK)

inductive DentryPass where
  | skip
  | bad
  | call (dentry : F2fsDirEntry)
deriving DecidableEq

def dentryPass (dblk : Memory) (i : Nat) : DentryPass :=
  let dentry := f2fsDirEntry dblk i
  if dentry.hashCode = 0 then .skip
  else if dentry.fileType = 0 then .skip
  else if F2FS_FT_MAX ≤ dentry.fileType ∨ F2FS_NAME_LEN < dentry.nameLen then .bad
  else .call dentry

/-- What a pass does for the walk; `todo` tells where the callback succeeds. -/
def dentrySteps (todo : F2fsDirEntry → Bool) (dblk : Memory) (i : Nat) : List (WalkStep Nat) :=
  match dentryPass dblk i with
  | .skip => []
  | .bad => [.leaf false]
  | .call dentry =>
    if dentry.fileType = F2FS_FT_DIR then [.leaf (todo dentry), .into dentry.ino] else [.leaf (todo dentry)]

/-- `_foreach_dirent` without its recursion; without a block the return value is still -1. -/
def foreachDirentBlocks (junk : Nat → Byte) (todo : F2fsDirEntry → Bool) (f2fs : F2fsEditor) (blocks : List Nat) :
    List (WalkStep Nat) :=
  if blocks = [] then [.leaf false]
  else blocks.flatMap fun blkno =>
    match f2fsReadBlocks f2fs blkno 1 f2fs.blockSize with
    | none => [.leaf false]
    | some dblk => (dentrySlots (bufferMemory junk dblk)).flatMap (dentrySteps todo (bufferMemory junk dblk))

def S_IFMT : Nat := 0xf000
def S_IFDIR : Nat := 0x4000

def iMode (inode : List Byte) : Nat := leField inode 0 2

def f2fsInodeHasNid (inode : List Byte) : Bool := (List.range DEF_NIDS_PER_INODE).any fun i => iNid inode i ≠ 0

/-- `foreach_dirent` without its recursion; the paths and the depth are left out. -/
def foreachDirent (junk : Nat → Byte) (todo : F2fsDirEntry → Bool) (f2fs : F2fsEditor) (ino : Nat) : List (WalkStep Nat) :=
  match f2fsAllocReadInode f2fs ino with
  | none => [.leaf false]
  | some inode =>
    if iMode inode &&& S_IFMT ≠ S_IFDIR then [.leaf false]
    else if iSize inode = 0 then [.leaf false]
    else if f2fsInodeHasNid inode then [.leaf false]
    else
      match f2fsInodeBlocksRead f2fs inode with
      | none => [.leaf false]
      | some blocks => foreachDirentBlocks junk todo f2fs blocks

def f2fsRootIno (f2fs : F2fsEditor) : Nat := leField f2fs.sblock 96 4

section Children

variable {todo : F2fsDirEntry → Bool}

theorem dentrySteps_child {dblk : Memory} {i child : Nat} (member : .into child ∈ dentrySteps todo dblk i) : child < 2^32 := by
  unfold dentrySteps at member
  split at member
  · exact absurd member List.not_mem_nil
  · cases List.mem_singleton.mp member
  · rename_i dentry called
    have same : dentry = f2fsDirEntry dblk i := by
      unfold dentryPass at called
      dsimp only at called
      split at called
      · cases called
      split at called
      · cases called
      split at called
      · cases called
      · exact (DentryPass.call.inj called).symm
    split at member
    · rcases List.mem_cons.mp member with leaf | into
      · cases leaf
      · rw [WalkStep.into.inj (List.mem_singleton.mp into), same]
        exact memField_lt dblk (dentryOffset i + 4) 4
    · cases List.mem_singleton.mp member

theorem foreachDirent_child {junk : Nat → Byte} {f2fs : F2fsEditor} {ino child : Nat}
    (member : .into child ∈ foreachDirent junk todo f2fs ino) : child < 2^32 := by
  unfold foreachDirent at member
  split at member
  · cases List.mem_singleton.mp member
  split at member
  · cases List.mem_singleton.mp member
  split at member
  · cases List.mem_singleton.mp member
  split at member
  · cases List.mem_singleton.mp member
  split at member
  · cases List.mem_singleton.mp member
  · unfold foreachDirentBlocks at member
    split at member
    · cases List.mem_singleton.mp member
    · rcases List.mem_flatMap.mp member with ⟨blkno, _, member⟩
      split at member
      · cases List.mem_singleton.mp member
      · rcases List.mem_flatMap.mp member with ⟨i, _, member⟩
        exact dentrySteps_child member

end Children

end ImgEditor
