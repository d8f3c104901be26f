import ImgEditor.Fs.Ext2Arithmetic

namespace ImgEditor

open Storage

/-! ## Two tables of slots of one width -/

theorem slots_apart_iff {width : Nat} (positive : 0 < width) {start start' count count' : Nat} (some : 0 < count)
    (some' : 0 < count') :
    (∀ j < count, ∀ j' < count', start + j * width + width ≤ start' + j' * width ∨
      start' + j' * width + width ≤ start + j * width) ↔
      start + count * width ≤ start' ∨ start' + count' * width ≤ start := by
  constructor
  · intro apart
    by_contra overlap
    rw [not_or, Nat.not_le, Nat.not_le] at overlap
    -- the first byte of the later table lies in a slot of the other one
    rcases Nat.le_total start start' with before | behind
    · have inside : (start' - start) / width < count := by
        rw [Nat.div_lt_iff_lt_mul positive]
        omega
      have slot := Nat.div_add_mod (start' - start) width
      have offset := Nat.mod_lt (start' - start) positive
      have clash := apart _ inside 0 some'
      rw [Nat.mul_comm] at slot
      omega
    · have inside : (start - start') / width < count' := by
        rw [Nat.div_lt_iff_lt_mul positive]
        omega
      have slot := Nat.div_add_mod (start - start') width
      have offset := Nat.mod_lt (start - start') positive
      have clash := apart 0 some _ inside
      rw [Nat.mul_comm] at slot
      omega
  · intro apart j inside j' inside'
    have last : j * width + width ≤ count * width := by
      rw [← Nat.succ_mul]
      exact Nat.mul_le_mul_right width inside
    have last' : j' * width + width ≤ count' * width := by
      rw [← Nat.succ_mul]
      exact Nat.mul_le_mul_right width inside'
    omega

theorem slots_distinct {width j j' : Nat} (start : Nat) (different : j ≠ j') :
    start + j * width + width ≤ start + j' * width ∨ start + j' * width + width ≤ start + j * width := by
  rcases Nat.lt_or_gt_of_ne different with less | greater
  · have next := Nat.mul_le_mul_right width (Nat.succ_le_of_lt less)
    rw [Nat.succ_mul] at next
    omega
  · have next := Nat.mul_le_mul_right width (Nat.succ_le_of_lt greater)
    rw [Nat.succ_mul] at next
    omega

/-! ## Two ways to count the inodes of a table -/

section Slots

variable {blockSize inodeSize : Nat} (sized : 0 < inodeSize) (room : inodeSize ≤ blockSize)

include sized room

/-- The 32 bit sum is exact when it does not wrap, as its two parts cannot be off by `2 ^ 32`. -/
theorem inodeAddress_wrapped_iff (small : blockSize ≤ 2 ^ 31) (table r i : Nat) :
    (table * blockSize + (r / (blockSize / inodeSize) * blockSize + i % (blockSize / inodeSize) * inodeSize)) % 2 ^ 32 =
        table * blockSize + r * inodeSize ↔
      table * blockSize + r * inodeSize < 2 ^ 32 ∧
        r / (blockSize / inodeSize) * blockSize + i % (blockSize / inodeSize) * inodeSize = r * inodeSize := by
  constructor
  · intro wrapped
    have below : table * blockSize + r * inodeSize < 2 ^ 32 := by
      rw [← wrapped]
      exact Nat.mod_lt _ (by decide)
    refine ⟨below, ?_⟩
    have positive : 0 < blockSize / inodeSize := Nat.div_pos room sized
    have whole := Nat.div_add_mod blockSize inodeSize
    have rest := Nat.mod_lt blockSize sized
    generalize blockSize / inodeSize = n at *
    have quotient := Nat.div_add_mod r n
    have column := Nat.mod_lt i positive
    generalize r / n = q at *
    generalize i % n = c at *
    generalize blockSize % inodeSize = d at *
    have slots : r * inodeSize = q * n * inodeSize + r % n * inodeSize := by
      rw [← Nat.add_mul, Nat.mul_comm q, quotient]
    have blocks : q * blockSize = q * n * inodeSize + q * d := by
      rw [← whole, Nat.mul_add, Nat.mul_comm inodeSize, Nat.mul_assoc]
    have gap : q * d ≤ q * inodeSize := Nat.mul_le_mul_left q (by omega)
    have filled : c * inodeSize + inodeSize ≤ n * inodeSize := by
      rw [← Nat.succ_mul]
      exact Nat.mul_le_mul_right inodeSize column
    rw [Nat.mul_comm inodeSize] at whole
    have short : q * d + c * inodeSize < 2 ^ 32 := by
      rcases Nat.eq_or_lt_of_le positive with one | more
      · obtain rfl : c = 0 := by omega
        rw [← one, Nat.mul_one] at slots
        omega
      · have double : q * inodeSize * 2 ≤ q * n * inodeSize :=
          (Nat.mul_le_mul_left (q * inodeSize) more).trans_eq (Nat.mul_right_comm q inodeSize n)
        omega
    omega
  · rintro ⟨below, same⟩
    rw [same, Nat.mod_eq_of_lt below]

theorem inodeSlots_agree_iff {inodesPerGroup : Nat} (counted : 0 < inodesPerGroup) (used : Nat) :
    (∀ i < used, i % inodesPerGroup / (blockSize / inodeSize) * blockSize + i % (blockSize / inodeSize) * inodeSize =
        i % inodesPerGroup * inodeSize) ↔
      (inodeSize ∣ blockSize ∨ min used inodesPerGroup ≤ blockSize / inodeSize) ∧
        (used ≤ inodesPerGroup ∨ blockSize / inodeSize ∣ inodesPerGroup) := by
  have positive : 0 < blockSize / inodeSize := Nat.div_pos room sized
  have factor : inodeSize ∣ blockSize → blockSize = blockSize / inodeSize * inodeSize :=
    fun divides => (Nat.div_mul_cancel divides).symm
  generalize blockSize / inodeSize = n at *
  constructor
  · intro agree
    constructor
    · -- inode `n` is the first one behind the first block
      by_contra neither
      rw [not_or] at neither
      have second := agree n (by omega)
      rw [Nat.mod_eq_of_lt (show n < inodesPerGroup by omega), Nat.div_self positive, Nat.mod_self, Nat.zero_mul,
        Nat.one_mul, Nat.add_zero] at second
      exact neither.1 ⟨n, by rw [second, Nat.mul_comm]⟩
    · -- the first inode of group 1
      by_contra neither
      rw [not_or] at neither
      have first := agree inodesPerGroup (by omega)
      rw [Nat.mod_self, Nat.zero_div, Nat.zero_mul, Nat.zero_mul, Nat.zero_add, Nat.mul_eq_zero] at first
      exact neither.2 (Nat.dvd_of_mod_eq_zero (first.resolve_right (by omega)))
  · rintro ⟨blocks, groups⟩ i inside
    have column : i % n = i % inodesPerGroup % n := by
      rcases groups with single | divides
      · rw [Nat.mod_eq_of_lt (show i < inodesPerGroup by omega)]
      · exact (Nat.mod_mod_of_dvd i divides).symm
    rw [column]
    have bound := Nat.mod_lt i counted
    have below := Nat.mod_le i inodesPerGroup
    generalize i % inodesPerGroup = r at *
    rcases blocks with divides | few
    · have split := Nat.div_add_mod r n
      calc r / n * blockSize + r % n * inodeSize = r / n * (n * inodeSize) + r % n * inodeSize := by rw [← factor divides]
        _ = (n * (r / n) + r % n) * inodeSize := by ring
        _ = r * inodeSize := by rw [split]
    · rw [Nat.div_eq_of_lt (by omega), Nat.mod_eq_of_lt (by omega), Nat.zero_mul, Nat.zero_add]

end Slots

def ext2InodeAddress (p : Ext2Editor) (ino : Nat) : Option Nat :=
  (ext2InodeBlockNumber p ino).map fun place => (place.1 * p.blockSize + place.2) % 2^32

theorem ext2ReadInode_address (p : Ext2Editor) (ino : Nat) :
    ext2ReadInode p ino = (ext2InodeAddress p ino).bind fun address =>
      let inode := ((p.fd.fileseek address).read sizeofExt2Inode).1
      if inode.length ≠ sizeofExt2Inode then none else some inode := by
  rw [ext2ReadInode, ext2InodeAddress]
  rcases ext2InodeBlockNumber p ino with _ | ⟨blkno, blkOffset⟩ <;> rfl

def inodeSlot (p : Ext2Editor) (table i : Nat) : Nat := table * p.blockSize + i % p.inodesPerGroup * p.inodeSize

def Ext2PrivateData.inodesOf (p : Ext2PrivateData) (g : Nat) : Nat :=
  min p.inodesPerGroup (sbTotalInodes p.sblock - g * p.inodesPerGroup)

def Ext2PrivateData.inodesUsed (p : Ext2PrivateData) : Nat :=
  min (sbTotalInodes p.sblock) (p.nBlockGroup * p.inodesPerGroup)

/-- Inodes are read at their exact places, which do not overlap. -/
structure InodesAddressed (p : Ext2PrivateData) : Prop where
  exact : ∀ ino, 1 ≤ ino → ino ≤ sbTotalInodes p.sblock → ∀ table,
    p.inodeTableId[(ino - 1) / p.inodesPerGroup]? = some table →
      ext2InodeAddress p.toExt2Editor ino = some (inodeSlot p.toExt2Editor table (ino - 1))
  apart : ∀ ino other, 1 ≤ ino → ino ≤ sbTotalInodes p.sblock → 1 ≤ other → other ≤ sbTotalInodes p.sblock → ino ≠ other →
    ∀ address address', ext2InodeAddress p.toExt2Editor ino = some address →
      ext2InodeAddress p.toExt2Editor other = some address' →
        address + p.inodeSize ≤ address' ∨ address' + p.inodeSize ≤ address

/-- Blocks are filled by inodes, or by the inodes of a group; groups begin with a block; and the tables end below 4 GiB
and lie apart. -/
structure InodeTablesFit (p : Ext2PrivateData) : Prop where
  blocks : p.inodeSize ∣ p.blockSize ∨ min p.inodesUsed p.inodesPerGroup ≤ p.blockSize / p.inodeSize
  groups : p.inodesUsed ≤ p.inodesPerGroup ∨ p.blockSize / p.inodeSize ∣ p.inodesPerGroup
  below : ∀ g table, p.inodeTableId[g]? = some table → g * p.inodesPerGroup < sbTotalInodes p.sblock →
    table * p.blockSize + (p.inodesOf g - 1) * p.inodeSize < 2^32
  apart : ∀ g g' table table', g < g' → g' * p.inodesPerGroup < sbTotalInodes p.sblock → p.inodeTableId[g]? = some table →
    p.inodeTableId[g']? = some table' →
      table * p.blockSize + p.inodesOf g * p.inodeSize ≤ table' * p.blockSize ∨
        table' * p.blockSize + p.inodesOf g' * p.inodeSize ≤ table * p.blockSize

namespace Ext2Accepted

variable {fd : Fd} {p : Ext2PrivateData} (accepted : Ext2Accepted fd p)

include accepted

theorem blockSize_le : p.blockSize ≤ 2 ^ 31 := by
  rw [accepted.editor]
  exact Nat.pow_le_pow_right (by decide) (Nat.le_sub_one_of_lt accepted.blockShift)

theorem inodeAddress_eq {i table : Nat} (few : i < 2 ^ 32 - 1) (stored : p.inodeTableId[i / p.inodesPerGroup]? = some table) :
    ext2InodeAddress p.toExt2Editor (i + 1) =
      some ((table * p.blockSize + (i % p.inodesPerGroup / (p.blockSize / p.inodeSize) * p.blockSize +
        i % (p.blockSize / p.inodeSize) * p.inodeSize)) % 2 ^ 32) := by
  have sizes := accepted.sizes
  have positive : 0 < p.blockSize / p.inodeSize := Nat.div_pos sizes.2 sizes.1
  have inside := (List.getElem?_eq_some_iff.mp stored).1
  have tables := accepted.tables
  have index : (i + 1 + 2 ^ 32 - 1) % 2 ^ 32 = i := by omega
  have offset : i % (p.blockSize / p.inodeSize) * p.inodeSize < 2 ^ 32 := by
    have room := Nat.mul_le_mul_right p.inodeSize (Nat.mod_lt i positive).le
    have whole := Nat.div_mul_le_self p.blockSize p.inodeSize
    have small := accepted.blockSize_le
    omega
  have none : ¬ (p.inodesPerGroup = 0 ∨ p.blockSize / p.inodeSize = 0) := by
    rw [not_or]
    exact ⟨accepted.counted, positive.ne'⟩
  rw [ext2InodeAddress, ext2InodeBlockNumber, index]
  dsimp only
  rw [if_neg none, if_neg (by omega), stored, Option.map_some, Nat.mod_eq_of_lt offset, Nat.add_mod, Nat.mod_mul_mod,
    ← Nat.add_mod, Nat.add_mul, Nat.add_assoc]

end Ext2Accepted

/-! ## The places of a group -/

theorem inodesOf_place {p : Ext2PrivateData} (counted : p.inodesPerGroup ≠ 0) {g j : Nat} (inside : j < p.inodesOf g) :
    (g * p.inodesPerGroup + j) / p.inodesPerGroup = g ∧ (g * p.inodesPerGroup + j) % p.inodesPerGroup = j ∧
      g * p.inodesPerGroup + j < sbTotalInodes p.sblock := by
  unfold Ext2PrivateData.inodesOf at inside
  have small : j < p.inodesPerGroup := by omega
  refine ⟨?_, ?_, by omega⟩
  · rw [Nat.mul_comm, Nat.mul_add_div (Nat.pos_of_ne_zero counted), Nat.div_eq_of_lt small, Nat.add_zero]
  · rw [Nat.mul_comm, Nat.mul_add_mod, Nat.mod_eq_of_lt small]

theorem inodesOf_pos {p : Ext2PrivateData} (counted : p.inodesPerGroup ≠ 0) {g : Nat} :
    0 < p.inodesOf g ↔ g * p.inodesPerGroup < sbTotalInodes p.sblock := by
  unfold Ext2PrivateData.inodesOf
  omega

theorem mod_lt_inodesOf {p : Ext2PrivateData} (counted : p.inodesPerGroup ≠ 0) {i : Nat} (inside : i < sbTotalInodes p.sblock) :
    i % p.inodesPerGroup < p.inodesOf (i / p.inodesPerGroup) := by
  unfold Ext2PrivateData.inodesOf
  have split := Nat.div_add_mod i p.inodesPerGroup
  have small := Nat.mod_lt i (Nat.pos_of_ne_zero counted)
  rw [Nat.mul_comm] at split
  omega

theorem inodeAddress_stored {p : Ext2Editor} {i address : Nat} (few : i < 2 ^ 32 - 1)
    (read : ext2InodeAddress p (i + 1) = some address) : ∃ table, p.inodeTableId[i / p.inodesPerGroup]? = some table := by
  have index : (i + 1 + 2 ^ 32 - 1) % 2 ^ 32 = i := by omega
  rw [ext2InodeAddress, ext2InodeBlockNumber, index] at read
  dsimp only at read
  split_ifs at read
  · cases read
  · cases read
  · cases stored : p.inodeTableId[i / p.inodesPerGroup]? with
    | none =>
      rw [stored] at read
      cases read
    | some table => exact ⟨table, rfl⟩

theorem sbTotalInodes_lt (sb : List Byte) : sbTotalInodes sb < 2 ^ 32 := leField_lt sb 0 4

namespace Ext2Accepted

variable {fd : Fd} {p : Ext2PrivateData} (accepted : Ext2Accepted fd p)

include accepted

theorem inodeAddress_exact_iff {i table : Nat} (inside : i < sbTotalInodes p.sblock)
    (stored : p.inodeTableId[i / p.inodesPerGroup]? = some table) :
    ext2InodeAddress p.toExt2Editor (i + 1) = some (inodeSlot p.toExt2Editor table i) ↔
      inodeSlot p.toExt2Editor table i < 2 ^ 32 ∧
        i % p.inodesPerGroup / (p.blockSize / p.inodeSize) * p.blockSize + i % (p.blockSize / p.inodeSize) * p.inodeSize =
          i % p.inodesPerGroup * p.inodeSize := by
  have total := sbTotalInodes_lt p.sblock
  rw [accepted.inodeAddress_eq (by omega) stored, Option.some.injEq]
  exact inodeAddress_wrapped_iff accepted.sizes.1 accepted.sizes.2 accepted.blockSize_le table (i % p.inodesPerGroup) i

theorem inodeTable_stored {i : Nat} (inside : i < p.inodesUsed) :
    ∃ table, p.inodeTableId[i / p.inodesPerGroup]? = some table := by
  unfold Ext2PrivateData.inodesUsed at inside
  have group : i / p.inodesPerGroup < p.inodeTableId.length := by
    rw [accepted.tables, Nat.div_lt_iff_lt_mul (Nat.pos_of_ne_zero accepted.counted)]
    omega
  exact ⟨_, List.getElem?_eq_getElem group⟩

theorem inodesUsed_of_stored {i table : Nat} (inside : i < sbTotalInodes p.sblock)
    (stored : p.inodeTableId[i / p.inodesPerGroup]? = some table) : i < p.inodesUsed := by
  have group := (List.getElem?_eq_some_iff.mp stored).1
  rw [accepted.tables, Nat.div_lt_iff_lt_mul (Nat.pos_of_ne_zero accepted.counted)] at group
  unfold Ext2PrivateData.inodesUsed
  omega

theorem inodeAddress_place {g j table : Nat} (inside : j < p.inodesOf g) (stored : p.inodeTableId[g]? = some table) :
    ext2InodeAddress p.toExt2Editor (g * p.inodesPerGroup + j + 1) = some (table * p.blockSize + j * p.inodeSize) ↔
      table * p.blockSize + j * p.inodeSize < 2 ^ 32 ∧
        j / (p.blockSize / p.inodeSize) * p.blockSize +
          (g * p.inodesPerGroup + j) % (p.blockSize / p.inodeSize) * p.inodeSize = j * p.inodeSize := by
  rcases inodesOf_place accepted.counted inside with ⟨group, column, total⟩
  rw [← group] at stored
  have exact := accepted.inodeAddress_exact_iff total stored
  rw [inodeSlot, column] at exact
  exact exact

end Ext2Accepted

theorem InodesAddressed.fit {fd : Fd} {p : Ext2PrivateData} (accepted : Ext2Accepted fd p) (addressed : InodesAddressed p) :
    InodeTablesFit p := by
  have place {g j table : Nat} (inside : j < p.inodesOf g) (stored : p.inodeTableId[g]? = some table) :
      ext2InodeAddress p.toExt2Editor (g * p.inodesPerGroup + j + 1) = some (table * p.blockSize + j * p.inodeSize) := by
    rcases inodesOf_place accepted.counted inside with ⟨group, column, total⟩
    have exact := addressed.exact (g * p.inodesPerGroup + j + 1) (by omega) (by omega) table
    rw [Nat.add_sub_cancel, group, inodeSlot, column] at exact
    exact exact stored
  have agree := (inodeSlots_agree_iff accepted.sizes.1 accepted.sizes.2 (Nat.pos_of_ne_zero accepted.counted) p.inodesUsed).mp
    (by
      intro i used
      rcases accepted.inodeTable_stored used with ⟨table, stored⟩
      have inside : i < sbTotalInodes p.sblock := used.trans_le (Nat.min_le_left _ _)
      have exact := addressed.exact (i + 1) (by omega) (by omega) table (by rwa [Nat.add_sub_cancel])
      exact ((accepted.inodeAddress_exact_iff inside stored).mp exact).2)
  refine ⟨agree.1, agree.2, ?_, ?_⟩
  · intro g table stored begun
    have some := (inodesOf_pos accepted.counted).mpr begun
    have last : p.inodesOf g - 1 < p.inodesOf g := by omega
    exact ((accepted.inodeAddress_place last stored).mp (place last stored)).1
  · intro g g' table table' less begun' stored stored'
    have begun : g * p.inodesPerGroup < sbTotalInodes p.sblock :=
      (Nat.mul_le_mul_right _ less.le).trans_lt begun'
    apply (slots_apart_iff accepted.sizes.1 ((inodesOf_pos accepted.counted).mpr begun)
      ((inodesOf_pos accepted.counted).mpr begun')).mp
    intro j inside j' inside'
    rcases inodesOf_place accepted.counted inside with ⟨group, -, total⟩
    rcases inodesOf_place accepted.counted inside' with ⟨group', -, total'⟩
    refine addressed.apart _ _ (by omega) (by omega) (by omega) (by omega) ?_ _ _ (place inside stored) (place inside' stored')
    intro same
    rw [Nat.add_right_cancel same, group'] at group
    omega

theorem InodeTablesFit.addressed {fd : Fd} {p : Ext2PrivateData} (accepted : Ext2Accepted fd p) (fit : InodeTablesFit p) :
    InodesAddressed p := by
  have agree := (inodeSlots_agree_iff accepted.sizes.1 accepted.sizes.2 (Nat.pos_of_ne_zero accepted.counted) p.inodesUsed).mpr
    ⟨fit.blocks, fit.groups⟩
  have exact {i table : Nat} (inside : i < sbTotalInodes p.sblock)
      (stored : p.inodeTableId[i / p.inodesPerGroup]? = some table) :
      ext2InodeAddress p.toExt2Editor (i + 1) = some (inodeSlot p.toExt2Editor table i) := by
    have column := mod_lt_inodesOf accepted.counted inside
    have begun := (inodesOf_pos accepted.counted).mp (Nat.zero_lt_of_lt column)
    have last := fit.below _ table stored begun
    have before : i % p.inodesPerGroup * p.inodeSize ≤ (p.inodesOf (i / p.inodesPerGroup) - 1) * p.inodeSize :=
      Nat.mul_le_mul_right _ (by omega)
    refine (accepted.inodeAddress_exact_iff inside stored).mpr ⟨?_, agree i (accepted.inodesUsed_of_stored inside stored)⟩
    unfold inodeSlot
    omega
  constructor
  · intro ino positive inside table stored
    have address := exact (by omega) stored
    rwa [Nat.sub_add_cancel positive] at address
  · intro ino other positive inside positive' inside' different address address' read read'
    have total := sbTotalInodes_lt p.sblock
    obtain ⟨i, rfl⟩ : ∃ i, ino = i + 1 := ⟨ino - 1, by omega⟩
    obtain ⟨i', rfl⟩ : ∃ i', other = i' + 1 := ⟨other - 1, by omega⟩
    rcases inodeAddress_stored (by omega) read with ⟨table, stored⟩
    rcases inodeAddress_stored (by omega) read' with ⟨table', stored'⟩
    rw [exact (by omega) stored] at read
    rw [exact (by omega) stored'] at read'
    rw [← Option.some.inj read, ← Option.some.inj read']
    have column := mod_lt_inodesOf accepted.counted (show i < sbTotalInodes p.sblock by omega)
    have column' := mod_lt_inodesOf accepted.counted (show i' < sbTotalInodes p.sblock by omega)
    have begun := (inodesOf_pos accepted.counted).mp (Nat.zero_lt_of_lt column)
    have begun' := (inodesOf_pos accepted.counted).mp (Nat.zero_lt_of_lt column')
    unfold inodeSlot
    rcases Nat.lt_trichotomy (i / p.inodesPerGroup) (i' / p.inodesPerGroup) with less | same | greater
    · have apart := fit.apart _ _ _ _ less begun' stored stored'
      exact (slots_apart_iff accepted.sizes.1 (Nat.zero_lt_of_lt column) (Nat.zero_lt_of_lt column')).mpr apart _ column _ column'
    · rw [← same, stored] at stored'
      rw [Option.some.inj stored']
      refine slots_distinct _ fun slot => different ?_
      rw [← Nat.div_add_mod i p.inodesPerGroup, same, slot, Nat.div_add_mod]
    · have apart := fit.apart _ _ _ _ greater begun stored' stored
      exact ((slots_apart_iff accepted.sizes.1 (Nat.zero_lt_of_lt column') (Nat.zero_lt_of_lt column)).mpr apart _ column' _
        column).symm

theorem inodesAddressed_iff {searchMode : Bool} {fd : Fd} {p : Ext2PrivateData} (detected : ext2Detect searchMode fd = .ok p) :
    InodesAddressed p ↔ InodeTablesFit p :=
  ⟨InodesAddressed.fit (ext2Detect_accepted detected), InodeTablesFit.addressed (ext2Detect_accepted detected)⟩

/-- `ext2_detect` of an image whose superblock, inode tables and root inode are computed. -/
theorem ext2Detect_image {fd : Fd} (sb : List Byte) {blockSize inodeSize groups inodesPerGroup : Nat} {tables : List Nat}
    (read : fileread (fd.fileseek SUPERBLOCK_START) sizeofExt2Sblock = some sb) (checked : ext2CheckSblock sb = true)
    (shifts : sbShift (sbLog2BlockSize sb) < 32 ∧ sbShift (sbLog2FragmentSize sb) < 32)
    (sizes : sbBlockBytes sb = blockSize ∧ sbInodeBytes sb = inodeSize ∧ sbGroups sb = groups ∧
      sbInodesPerGroup sb = inodesPerGroup)
    (few : groups ≤ 8192 ∧ ext2DescriptorSize sb ≤ sizeofExt2BlockGroup)
    (complete : ((sbTotalBlocks sb * blockSize : Nat) : Int) ≤ (fd.file.size : Int) - fd.start)
    (loaded : (sbLoadGroups sb fd).toOption.map (List.map bgInodeTableId) = some tables)
    (root : (ext2ReadInodeM ⟨fd, blockSize, inodeSize, groups, inodesPerGroup, tables⟩
      EXT2_ROOT_INO).toOption.isSome = true) :
    ∃ p, ext2Detect false fd = .ok p ∧ p.sblock = sb ∧
      p.toExt2Editor = ⟨fd, blockSize, inodeSize, groups, inodesPerGroup, tables⟩ := by
  rcases sizes with ⟨rfl, rfl, rfl, rfl⟩
  cases groupsRead : sbLoadGroups sb fd with
  | error fail =>
    rw [groupsRead] at loaded
    cases loaded
  | ok blockGroups =>
    rw [groupsRead] at loaded
    obtain rfl : blockGroups.map bgInodeTableId = tables := Option.some.inj loaded
    change (ext2ReadInodeM (sbEditor sb fd blockGroups) EXT2_ROOT_INO).toOption.isSome = true at root
    cases rootRead : ext2ReadInodeM (sbEditor sb fd blockGroups) EXT2_ROOT_INO with
    | error fail =>
      rw [rootRead] at root
      cases root
    | ok rootInode =>
      rcases ext2Detect_accepts read checked shifts few.1 few.2 complete groupsRead rootRead with
        ⟨p, detected, editor, sblock, -⟩
      exact ⟨p, detected, sblock, editor⟩

theorem inodesAddressed_iff_small : ∃ p, ext2Detect false (ext2Image (ext2SmallSuper 128) 8192) = .ok p ∧
    InodesAddressed p := by
  rcases @ext2Detect_image (ext2Image (ext2SmallSuper 128) 8192) (ext2SmallSblock 128) 1024 128 1 16 [0]
    (ext2Image_superblock (by decide +kernel)) (by decide +kernel) (by decide +kernel) (by decide +kernel) (by decide +kernel)
    (by decide +kernel) (by decide +kernel) (by decide +kernel) with ⟨p, detected, sblock, editor⟩
  have total : sbTotalInodes p.sblock = 16 := by
    rw [sblock]
    decide +kernel
  refine ⟨p, detected, (inodesAddressed_iff detected).mpr ⟨?_, ?_, ?_, ?_⟩⟩
  · rw [editor]
    exact .inl (by decide)
  · rw [Ext2PrivateData.inodesUsed, total, editor]
    exact .inl (by decide)
  · intro g table stored
    rw [Ext2PrivateData.inodesOf, total, editor]
    rw [editor] at stored
    have zero : g = 0 ∧ table = 0 := by
      rcases g with _ | g
      · exact ⟨rfl, (Option.some.inj stored).symm⟩
      · cases stored
    rw [zero.1, zero.2]
    decide
  · intro g g' table table' less begun stored stored'
    rw [editor] at stored'
    have inside := (List.getElem?_eq_some_iff.mp stored').1
    exact absurd less (by simp at inside; omega)

/-! An image of 2 groups of 65528 blocks of 64 KiB, with tables of one block in the blocks 4 and 65540. -/

def ext2LargeSuper : List (Nat × List Byte) :=
  [(0, leBytes 4 512), (4, leBytes 4 131056), (24, leBytes 4 6), (28, leBytes 4 6), (32, leBytes 4 65528),
    (36, leBytes 4 65528), (40, leBytes 4 256), (56, leBytes 2 EXT2_MAGIC), (76, leBytes 4 1), (88, leBytes 2 256),
    (64520, leBytes 4 4), (64552, leBytes 4 65540)]

def ext2LargeImage : Fd := ext2Image ext2LargeSuper (131056 * 65536)

def ext2LargeSblock : List Byte := ext2LargeImage.file.slice 1024 1024

/-- The table of group 1 starts behind 4 GiB, and its first inode is read where the one of group 0 lies. -/
theorem inodesAddressed_wraps : ∃ p, ext2Detect false ext2LargeImage = .ok p ∧ ¬ InodesAddressed p := by
  rcases @ext2Detect_image ext2LargeImage ext2LargeSblock 65536 256 2 256 [4, 65540]
    (ext2Image_superblock (by decide +kernel)) (by decide +kernel) (by decide +kernel) (by decide +kernel) (by decide +kernel)
    (by decide +kernel) (by decide +kernel) (by decide +kernel) with ⟨p, detected, sblock, editor⟩
  refine ⟨p, detected, fun addressed => ?_⟩
  have total : sbTotalInodes p.sblock = 512 := by
    rw [sblock]
    decide +kernel
  have address := addressed.exact 257 (by decide) (by omega) 65540 (by rw [editor]; rfl)
  rw [editor] at address
  revert address
  decide

end ImgEditor
