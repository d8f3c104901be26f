import ImgEditor.Core.CInt
import ImgEditor.Fs.XfsDetect
import ImgEditor.Storage.Checked

namespace ImgEditor

open Storage

def sbRootino (sb : List Byte) : XfsM Nat := beField sb 56 8
def sbInopblog (sb : List Byte) : XfsM Nat := beField sb 123 1

def XFS_DINODE_MAGIC : Nat := 0x494e

def diMagic (inode : List Byte) : XfsM Nat := beField inode 0 2
def diIno (inode : List Byte) : XfsM Nat := beField inode 152 8

/-- `blkno` and `blkoffset`, and the byte that is sought. -/
structure XfsInodePlace where
  blkno : Nat
  blkoffset : Nat
  address : Nat
deriving DecidableEq

/-- `_xfs_alloc_read_inode` up to `fileseek`. The quotient and the remainder are of `int`, the address of `uint32_t`. -/
def xfsInodePlace (xfs : XfsEditor) (ino : Int) : XfsM XfsInodePlace :=
  match xfs.ags[0]? with
  | none => throw .fault
  | some ag => do
    let rootino ← sbRootino ag.sb
    if ino < toInt32 rootino then throw .error
    else if xfs.inodePerBlock = 0 then throw .fault
    else
      let blkno := (ino.tdiv xfs.inodePerBlock % 2^32).toNat
      let blkoffset := (ino.tmod xfs.inodePerBlock * xfs.inodeSize % 2^32).toNat
      return ⟨blkno, blkoffset, (blkno * xfs.blockSize + blkoffset) % 2^32⟩

def xfsAllocReadInode (xfs : XfsEditor) (ino : Int) : XfsM (XfsInodePlace × List Byte) := do
  let place ← xfsInodePlace xfs ino
  match fileread (xfs.fd.fileseek place.address) xfs.inodeSize with
  | none => throw .error
  | some inode =>
    if (← diMagic inode) ≠ XFS_DINODE_MAGIC then throw .error
    if (← diIno inode) ≠ toSizeT ino then throw .error
    return (place, inode)

/-- The `int` that `xfs_do_inode` makes of a number; `strtol` stops at `LONG_MAX`. -/
def xfsInoArg (number : Nat) : XfsM Int :=
  let ino := toInt32 (min number (2^63 - 1))
  if ino < 0 then throw .error else return ino

/-- `xfs_do_inode`, without the printing. -/
def xfsDoInode (xfs : XfsEditor) (number : Nat) : XfsM (XfsInodePlace × List Byte) := do
  let ino ← xfsInoArg number
  xfsAllocReadInode xfs ino

/-! ## Inode numbers -/

structure XfsInodeNumber (xfs : XfsEditor) where
  agno : Nat
  agBlock : Nat
  index : Nat
  inside : agBlock < xfs.agBlocks
  slot : index < xfs.inodePerBlock

namespace XfsInodeNumber

variable {xfs : XfsEditor} (n : XfsInodeNumber xfs)

/-- The number itself; shifts count modulo 64. -/
def number (agblklog inopblog : Nat) : Nat := (n.agno * 2 ^ (agblklog % 64) + n.agBlock) * 2 ^ (inopblog % 64) + n.index

def block : Nat := n.agno * xfs.agBlocks + n.agBlock

/-- The inodes in front of this one if the AGs followed each other without gaps in the numbers. -/
def ordinal : Nat := n.block * xfs.inodePerBlock + n.index

def place : XfsInodePlace := ⟨n.block, n.index * xfs.inodeSize, n.block * xfs.blockSize + n.index * xfs.inodeSize⟩

/-- For numbers that an `int` holds, it comes down to the scale of the AG numbers. -/
theorem plain_iff {agblklog inopblog : Nat} (power : xfs.inodePerBlock = 2 ^ (inopblog % 64))
    (small : n.number agblklog inopblog < 2^31) : toInt32 (min (n.number agblklog inopblog) (2^63 - 1)) = n.ordinal ↔
      n.agno = 0 ∨ xfs.agBlocks = 2 ^ (agblklog % 64) := by
  have least : min (n.number agblklog inopblog : Int) (2^63 - 1) = n.number agblklog inopblog := by omega
  have positive : 0 < 2 ^ (inopblog % 64) := Nat.two_pow_pos _
  rw [least, toInt32_of_lt small, Nat.cast_inj, number, ordinal, block, power, Nat.add_right_cancel_iff,
    Nat.mul_left_inj (Nat.ne_of_gt positive), Nat.add_right_cancel_iff]
  rcases Nat.eq_zero_or_pos n.agno with zero | later
  · rw [zero, Nat.zero_mul, Nat.zero_mul]
    exact iff_of_true rfl (.inl rfl)
  · rw [Nat.mul_left_cancel_iff later]
    constructor
    · intro same
      exact .inr same.symm
    · intro same
      exact (same.resolve_left (Nat.ne_of_gt later)).symm

end XfsInodeNumber

def XfsInodeRight (xfs : XfsEditor) (agblklog inopblog : Nat) (n : XfsInodeNumber xfs) : Prop :=
  (xfsInoArg (n.number agblklog inopblog) >>= xfsInodePlace xfs) = .ok n.place

/-- The number fits in an `int` and has no gaps in front of it, it is not below that of the root, and the address fits in
32 bits. -/
structure XfsInodeFits (xfs : XfsEditor) (agblklog inopblog : Nat) (n : XfsInodeNumber xfs) : Prop where
  plain : toInt32 (min (n.number agblklog inopblog) (2^63 - 1)) = n.ordinal
  root : ∃ ag rootino, xfs.ags[0]? = some ag ∧ sbRootino ag.sb = .ok rootino ∧ toInt32 rootino ≤ n.ordinal
  address : n.place.address < 2^32

section Geometry

variable {fd : Fd} {xfs : XfsEditor} {sb : List Byte}

theorem xfsCheckSb_sizes (checked : xfsCheckSb sb = .ok ()) : ∃ inodelog inopblog,
    beField sb 104 2 = .ok (2 ^ (inodelog % 64)) ∧ beField sb 106 2 = .ok (2 ^ (inopblog % 64)) ∧
      sbInopblog sb = .ok inopblog := by
  unfold xfsCheckSb at checked
  obtain ⟨magic, _, checked⟩ := bind_ok_iff.mp checked
  split at checked
  · cases checked
  · obtain ⟨_, _, checked⟩ := bind_ok_iff.mp checked
    obtain ⟨_, _, checked⟩ := bind_ok_iff.mp checked
    obtain ⟨_, inodes, inops⟩ := bind_ok_iff.mp checked
    obtain ⟨_, inodelog, inodeField, _, rfl⟩ := sbCheckLogsize_ok inodes
    obtain ⟨_, inopblog, inopField, logField, rfl⟩ := sbCheckLogsize_ok inops
    exact ⟨inodelog, inopblog, inodeField, inopField, logField⟩

theorem xfsInitAllocAgs_sizes (allocated : xfsInitAllocAgs fd sb = .ok xfs) :
    beField sb 104 2 = .ok xfs.inodeSize ∧ beField sb 106 2 = .ok xfs.inodePerBlock := by
  unfold xfsInitAllocAgs at allocated
  obtain ⟨sectorSize, _, allocated⟩ := bind_ok_iff.mp allocated
  obtain ⟨blockSize, _, allocated⟩ := bind_ok_iff.mp allocated
  obtain ⟨inodeSize, inodeField, allocated⟩ := bind_ok_iff.mp allocated
  obtain ⟨inodePerBlock, inopField, allocated⟩ := bind_ok_iff.mp allocated
  obtain ⟨agCount, _, allocated⟩ := bind_ok_iff.mp allocated
  obtain ⟨agBlocks, _, allocated⟩ := bind_ok_iff.mp allocated
  rw [← Except.ok.inj allocated]
  exact ⟨inodeField, inopField⟩

theorem xfsDetect_geometry (accepted : xfsDetect fd = .ok xfs) : ∃ sb inodelog inopblog,
    fileread fd sizeofXfsDsb = some sb ∧ sbInopblog sb = .ok inopblog ∧ xfs.inodePerBlock = 2 ^ (inopblog % 64) ∧
      xfs.inodePerBlock < 2 ^ 16 ∧ xfs.inodeSize = 2 ^ (inodelog % 64) ∧ xfs.inodeSize < 2 ^ 16 := by
  unfold xfsDetect at accepted
  split at accepted
  · cases accepted
  · rename_i sb read
    obtain ⟨_, checked, accepted⟩ := bind_ok_iff.mp accepted
    obtain ⟨initial, allocated, accepted⟩ := bind_ok_iff.mp accepted
    obtain ⟨ags, _, accepted⟩ := bind_ok_iff.mp accepted
    obtain ⟨inodelog, inopblog, inodes, inops, log⟩ := xfsCheckSb_sizes checked
    obtain ⟨inodeField, inopField⟩ := xfsInitAllocAgs_sizes allocated
    have inodeBound := beField_lt inodeField
    have inopBound := beField_lt inopField
    rw [← Except.ok.inj accepted]
    exact ⟨sb, inodelog, inopblog, read, log, Except.ok.inj (inopField.symm.trans inops), inopBound,
      Except.ok.inj (inodeField.symm.trans inodes), inodeBound⟩

end Geometry

section Place

variable {xfs : XfsEditor}

theorem xfsInodePlace_ok_iff {ino : Int} {place : XfsInodePlace} : xfsInodePlace xfs ino = .ok place ↔
    (∃ ag rootino, xfs.ags[0]? = some ag ∧ sbRootino ag.sb = .ok rootino ∧ toInt32 rootino ≤ ino) ∧
      xfs.inodePerBlock ≠ 0 ∧ place.blkno = (ino.tdiv xfs.inodePerBlock % 2^32).toNat ∧
      place.blkoffset = (ino.tmod xfs.inodePerBlock * xfs.inodeSize % 2^32).toNat ∧
      place.address = (place.blkno * xfs.blockSize + place.blkoffset) % 2^32 := by
  constructor
  · intro found
    unfold xfsInodePlace at found
    split at found
    · cases found
    · rename_i ag first
      obtain ⟨rootino, root, found⟩ := bind_ok_iff.mp found
      split at found
      · cases found
      · rename_i least
        split at found
        · cases found
        · rename_i some_
          obtain rfl := Except.ok.inj found
          exact ⟨⟨ag, rootino, first, root, Int.not_lt.mp least⟩, some_, rfl, rfl, rfl⟩
  · rintro ⟨⟨ag, rootino, first, root, least⟩, some_, blkno, blkoffset, address⟩
    unfold xfsInodePlace
    rw [first]
    refine bind_ok_iff.mpr ⟨rootino, root, ?_⟩
    rw [if_neg (Int.not_lt.mpr least), if_neg some_]
    obtain ⟨_, _, _⟩ := place
    dsimp only at blkno blkoffset address
    rw [address, blkno, blkoffset]
    rfl

theorem xfsInoArg_ok_iff {number : Nat} {ino : Int} :
    xfsInoArg number = .ok ino ↔ toInt32 (min number (2^63 - 1)) = ino ∧ 0 ≤ ino := by
  unfold xfsInoArg
  dsimp only
  split
  · rename_i negative
    refine iff_of_false nofun ?_
    rintro ⟨same, positive⟩
    omega
  · rename_i positive
    constructor
    · intro same
      rw [← Except.ok.inj same]
      exact ⟨rfl, Int.not_lt.mp positive⟩
    · rintro ⟨rfl, _⟩
      rfl

/-- The inode that is printed comes from the place. -/
theorem xfsDoInode_ok {number : Nat} {place : XfsInodePlace} {inode : List Byte}
    (read : xfsDoInode xfs number = .ok (place, inode)) : (xfsInoArg number >>= xfsInodePlace xfs) = .ok place ∧
      fileread (xfs.fd.fileseek place.address) xfs.inodeSize = some inode := by
  obtain ⟨ino, arg, read⟩ := bind_ok_iff.mp read
  obtain ⟨found, placed, read⟩ := bind_ok_iff.mp read
  cases bytes : fileread (xfs.fd.fileseek found.address) xfs.inodeSize with
  | none =>
    rw [bytes] at read
    cases read
  | some buf =>
    rw [bytes] at read
    obtain ⟨magic, _, read⟩ := bind_ok_iff.mp read
    split at read
    · cases read
    · obtain ⟨own, _, read⟩ := bind_ok_iff.mp read
      split at read
      · cases read
      · obtain ⟨rfl, rfl⟩ := Prod.mk.inj (Except.ok.inj read)
        exact ⟨bind_ok_iff.mpr ⟨ino, arg, placed⟩, bytes⟩

theorem toInt32_lt (x : Int) : toInt32 x < 2^31 := by
  have upper := @Int.bmod_lt x (2^32) (by decide)
  exact upper

theorem xfsInodeQuotient {m count : Nat} (small : m < 2^31) : ((m : Int).tdiv count % 2^32).toNat = m / count := by
  have less : m / count ≤ m := Nat.div_le_self m count
  rw [← Int.ofNat_tdiv]
  generalize m / count = quotient at less ⊢
  omega

theorem xfsInodeRemainder {m count size : Nat} (used : 0 < count) (many : count < 2^16) (large : size < 2^16) :
    ((m : Int).tmod count * size % 2^32).toNat = m % count * size := by
  have less : m % count < 2^16 := Nat.lt_trans (Nat.mod_lt m used) many
  have product : m % count * size < 2^16 * 2^16 := Nat.mul_lt_mul'' less large
  rw [← Int.ofNat_tmod, ← Int.natCast_mul]
  omega

end Place

/-- A division of an inode number leaves the gaps behind the AGs in, and what is computed is 32 bits wide. -/
theorem xfsInode_right_iff {fd : Fd} {xfs : XfsEditor} (accepted : xfsDetect fd = .ok xfs) (agblklog inopblog : Nat)
    (n : XfsInodeNumber xfs) : XfsInodeRight xfs agblklog inopblog n ↔ XfsInodeFits xfs agblklog inopblog n := by
  obtain ⟨_, inodelog, _, _, _, _, many, size, large⟩ := xfsDetect_geometry accepted
  have positive : 0 < xfs.inodeSize := by
    rw [size]
    exact Nat.two_pow_pos _
  have used : 0 < xfs.inodePerBlock := Nat.lt_of_le_of_lt (Nat.zero_le _) n.slot
  rw [XfsInodeRight, bind_ok_iff]
  constructor
  · rintro ⟨ino, arg, found⟩
    obtain ⟨value, least⟩ := xfsInoArg_ok_iff.mp arg
    obtain ⟨root, _, blkno, blkoffset, address⟩ := xfsInodePlace_ok_iff.mp found
    obtain ⟨m, rfl⟩ := Int.eq_ofNat_of_zero_le least
    have small : m < 2^31 := by
      have upper := toInt32_lt (min (↑(n.number agblklog inopblog)) (2^63 - 1))
      rw [value] at upper
      exact Int.ofNat_lt.mp upper
    rw [xfsInodeQuotient small] at blkno
    rw [xfsInodeRemainder used many large] at blkoffset
    have block : n.block = m / xfs.inodePerBlock := blkno
    have index : n.index = m % xfs.inodePerBlock := Nat.eq_of_mul_eq_mul_right positive blkoffset
    have whole : m = n.ordinal := by
      rw [XfsInodeNumber.ordinal, block, index, Nat.div_add_mod']
    constructor
    case plain => rw [value, whole]
    case root =>
      rw [← whole]
      exact root
    case address =>
      rw [address]
      exact Nat.mod_lt _ (by decide)
  · intro fits
    have small : n.ordinal < 2^31 := by
      have upper := toInt32_lt (min (↑(n.number agblklog inopblog)) (2^63 - 1))
      rw [fits.plain] at upper
      exact Int.ofNat_lt.mp upper
    refine ⟨n.ordinal, xfsInoArg_ok_iff.mpr ⟨fits.plain, Int.natCast_nonneg _⟩, ?_⟩
    refine xfsInodePlace_ok_iff.mpr ⟨fits.root, Nat.ne_of_gt used, ?_, ?_, ?_⟩
    · rw [xfsInodeQuotient small, XfsInodeNumber.ordinal, Nat.mul_comm, Nat.mul_add_div used, Nat.div_eq_of_lt n.slot]
      rfl
    · rw [xfsInodeRemainder used many large, XfsInodeNumber.ordinal, Nat.mul_add_mod', Nat.mod_eq_of_lt n.slot]
      rfl
    · exact (Nat.mod_eq_of_lt fits.address).symm

/-- Two AGs of 3 blocks, whose numbers are 4 blocks apart; 8 inodes of 512 bytes in a block. -/
def xfsGapImage : File :=
  ((((File.empty.writeAt 0 (be32Words [0x58465342, 4096])).writeAt 84 (be32Words [3, 2])).writeAt 102
    [2, 0, 2, 0, 0, 8]).writeAt 120 [12, 9, 9, 3, 2]).writeAt 1023 [0]

def xfsGapGeometry (xfs : XfsEditor) : Nat × Nat × Nat × Nat × Option (Option Nat) :=
  (xfs.agBlocks, xfs.blockSize, xfs.inodePerBlock, xfs.inodeSize, xfs.ags[0]?.map fun ag => (sbRootino ag.sb).toOption)

theorem except_of_toOption {α : Type} {result : XfsM α} {a : α} (some_ : result.toOption = some a) : result = .ok a := by
  cases result with
  | error _ => cases some_
  | ok b => exact congrArg _ (Option.some.inj some_)

theorem xfsGapImage_accepted : ∃ xfs, xfsDetect ⟨xfsGapImage, 0, 0⟩ = .ok xfs ∧ xfs.agBlocks = 3 ∧
    xfs.blockSize = 4096 ∧ xfs.inodePerBlock = 8 ∧ xfs.inodeSize = 512 ∧
    ∃ ag, xfs.ags[0]? = some ag ∧ sbRootino ag.sb = .ok 0 := by
  have geometry : (xfsDetect ⟨xfsGapImage, 0, 0⟩).toOption.map xfsGapGeometry = some (3, 4096, 8, 512, some (some 0)) := by
    decide +kernel
  obtain ⟨xfs, detected, fields⟩ := Option.map_eq_some_iff.mp geometry
  simp only [xfsGapGeometry, Prod.mk.injEq, Option.map_eq_some_iff] at fields
  obtain ⟨blocks, size, inodes, width, ag, first, root⟩ := fields
  exact ⟨xfs, except_of_toOption detected, blocks, size, inodes, width, ag, first, except_of_toOption root⟩

/-- The first inode of the second AG has number 32; it is in block 3, and is sought in block 4. -/
theorem xfsInode_gap : ∃ xfs, xfsDetect ⟨xfsGapImage, 0, 0⟩ = .ok xfs ∧
    ∃ n : XfsInodeNumber xfs, n.agno = 1 ∧ ¬ XfsInodeRight xfs 2 3 n := by
  obtain ⟨xfs, detected, blocks, _, inodes, _, _⟩ := xfsGapImage_accepted
  refine ⟨xfs, detected, ⟨1, 0, 0, by omega, by omega⟩, rfl, ?_⟩
  intro right
  obtain ⟨ino, arg, found⟩ := bind_ok_iff.mp right
  obtain ⟨value, _⟩ := xfsInoArg_ok_iff.mp arg
  rw [show XfsInodeNumber.number _ 2 3 = 32 from rfl] at value
  obtain rfl : 32 = ino := by
    rw [← value]
    decide
  obtain ⟨_, _, blkno, _⟩ := xfsInodePlace_ok_iff.mp found
  have block : 1 * xfs.agBlocks + 0 = ((32 : Int).tdiv xfs.inodePerBlock % 2^32).toNat := blkno
  rw [blocks, inodes] at block
  exact absurd block (by decide)

theorem xfsInode_right_iff_first : ∃ xfs, xfsDetect ⟨xfsGapImage, 0, 0⟩ = .ok xfs ∧
    ∃ n : XfsInodeNumber xfs, n.index = 1 ∧ XfsInodeRight xfs 2 3 n := by
  obtain ⟨xfs, detected, blocks, size, inodes, width, ag, first, root⟩ := xfsGapImage_accepted
  obtain ⟨n, agno, agBlock, index⟩ : ∃ n : XfsInodeNumber xfs, n.agno = 0 ∧ n.agBlock = 0 ∧ n.index = 1 :=
    ⟨⟨0, 0, 1, by omega, by omega⟩, rfl, rfl, rfl⟩
  have small : n.number 2 3 < 2^31 := by
    rw [XfsInodeNumber.number, agno, agBlock, index]
    decide
  refine ⟨xfs, detected, n, index, (xfsInode_right_iff detected 2 3 n).mpr ⟨?_, ⟨ag, 0, first, root, ?_⟩, ?_⟩⟩
  · exact (n.plain_iff inodes small).mpr (.inl agno)
  · exact Int.natCast_nonneg _
  · show n.block * xfs.blockSize + n.index * xfs.inodeSize < 2^32
    rw [XfsInodeNumber.block, agno, agBlock, index, size, width, Nat.zero_mul]
    decide

end ImgEditor
