import ImgEditor.Fs.Ext2Dirent
import ImgEditor.Fs.Ext2DirentLoop
import ImgEditor.Storage.TreeWalk

namespace ImgEditor

open Storage

/-- Which calls of `mkdir`, of `unpack_file` and of `unpack_symlink` succeed, by the inode. -/
structure UnpackCalls where
  mkdir : Nat → Bool
  unpackFile : Nat → Bool
  unpackSymlink : Nat → Bool

def direntName (m : Memory) (dir i : Nat) : Byte := m (dir + sizeofExt2Dirent + i)

def IsDot (m : Memory) (dir : Nat) : Prop := direntNamelen m dir = 1 ∧ direntName m dir 0 = 0x2e#8

def IsDotDot (m : Memory) (dir : Nat) : Prop :=
  direntNamelen m dir = 2 ∧ direntName m dir 0 = 0x2e#8 ∧ direntName m dir 1 = 0x2e#8

instance (m : Memory) (dir : Nat) : Decidable (IsDot m dir) := inferInstanceAs (Decidable (_ ∧ _))
instance (m : Memory) (dir : Nat) : Decidable (IsDotDot m dir) := inferInstanceAs (Decidable (_ ∧ _ ∧ _))

def unpackDirentStep (calls : UnpackCalls) (m : Memory) (dir : Nat) : WalkStep Nat :=
  let ino := direntInode m dir
  let filetype := direntFiletype m dir
  if filetype = EXT4_FT_REG_FILE then .leaf (calls.unpackFile ino)
  else if filetype = EXT4_FT_DIR then
    if IsDot m dir ∨ IsDotDot m dir then .leaf true else .into ino
  else if filetype = EXT4_FT_SYMLINK then .leaf (calls.unpackSymlink ino)
  else .leaf (EXT4_FT_CHRDEV ≤ filetype ∧ filetype ≤ EXT4_FT_SOCK)

/-- The passes of the loop of `unpack_dirent`, with fuel for the bytes that are left. -/
def unpackDirentSteps (calls : UnpackCalls) (m : Memory) (direntSize : Nat) : Nat → Nat → List (WalkStep Nat)
  | 0, _ => []
  | fuel + 1, offset =>
    if direntSize ≤ offset then []
    else if direntSize < offset + direntlen m offset then []
    else if direntlen m offset ≤ sizeofExt2Dirent then [.leaf false]
    else
      let rest := unpackDirentSteps calls m direntSize fuel (offset + direntlen m offset)
      if direntInode m offset = 0 then rest else unpackDirentStep calls m offset :: rest

/-- The memory behind `it.parent`, which `junk` goes on with. -/
def direntMemory (junk : Nat → Byte) (it : DirentIterator) : Memory :=
  fun i => if i < it.parent.size then it.parent.byte i else junk i

/-- `unpack_dirent` without its recursion; the paths are left out. -/
def unpackDirent (heap : Nat → Memory) (junk : Nat → Byte) (calls : UnpackCalls) (p : Ext2Editor) (ino : Nat) :
    List (WalkStep Nat) :=
  match direntIteratorInit heap p ino with
  | .error _ => [.leaf false]
  | .ok it =>
    let entries := unpackDirentSteps calls (direntMemory junk it) it.direntSize it.direntSize 0
    if ino ≠ EXT2_ROOT_INO then .leaf (calls.mkdir ino) :: entries else entries

section UnpackDirent

variable {calls : UnpackCalls} {m : Memory}

theorem unpackDirentStep_child {dir child : Nat} (same : unpackDirentStep calls m dir = .into child) :
    child = direntInode m dir := by
  unfold unpackDirentStep at same
  dsimp only at same
  split at same
  · cases same
  split at same
  · split at same
    · cases same
    · exact (WalkStep.into.inj same).symm
  split at same
  · cases same
  · cases same

theorem unpackDirentSteps_child {size fuel offset child : Nat}
    (member : .into child ∈ unpackDirentSteps calls m size fuel offset) : child < 2^32 := by
  induction fuel generalizing offset with
  | zero => exact absurd member List.not_mem_nil
  | succ fuel ih =>
    rw [unpackDirentSteps] at member
    split at member
    · exact absurd member List.not_mem_nil
    split at member
    · exact absurd member List.not_mem_nil
    split at member
    · cases List.mem_singleton.mp member
    dsimp only at member
    split at member
    · exact ih member
    · rcases List.mem_cons.mp member with same | later
      · rw [unpackDirentStep_child same.symm]
        exact memField_lt m offset 4
      · exact ih later

theorem unpackDirent_child {heap : Nat → Memory} {junk : Nat → Byte} {p : Ext2Editor} {ino child : Nat}
    (member : .into child ∈ unpackDirent heap junk calls p ino) : child < 2^32 := by
  unfold unpackDirent at member
  split at member
  · cases List.mem_singleton.mp member
  · dsimp only at member
    split at member
    · rcases List.mem_cons.mp member with same | entry
      · cases same
      · exact unpackDirentSteps_child entry
    · exact unpackDirentSteps_child member

end UnpackDirent

end ImgEditor
