import ImgEditor.Fs.ExtentTree

namespace ImgEditor

open Storage

def sizeofExt4ExtentHeader : Nat := 12
def sizeofExt4Extent : Nat := 12

/-- The calls of `extent_iterator_appending` for an inode: the iterator, the header and the size of its container.
The call is `extentIteratorAppending p junk (fuel + 1) it eh`. -/
inductive ExtentVisits (p : Ext2Editor) (junk : Nat → Memory) (ino : Nat) (dataBlocks : Option Bitmask) :
    Nat → ExtentIterator → Memory → Nat → Prop
  | root {inode : List Byte} (read : ext2ReadInode p ino = some inode) (flag : leField inode 32 4 &&& EXT4_EXTENTS_FL ≠ 0)
      (magic : ehMagic (inodeExtentHeader (junk 0) inode) = EXT4_EXT_MAGIC)
      (shallow : ehDepth (inodeExtentHeader (junk 0) inode) ≤ 5) :
      ExtentVisits p junk ino dataBlocks 5 ⟨inode, none, 0, dataBlocks, []⟩ (inodeExtentHeader (junk 0) inode) 60
  | child {fuel size i : Nat} {it before : ExtentIterator} {eh : Memory} {blk : List Byte}
      (visited : ExtentVisits p junk ino dataBlocks (fuel + 1) it eh size) (index : 0 < ehDepth eh) (less : i < ehEntries eh)
      (earlier : extentIteratorChildren p junk (extentIteratorAppending p junk (fuel + 1)) eh 0 i it = .ok before)
      (read : ext2ReadBlocks p (ext4ExtentIdxLeafBlock eh i) 1 p.blockSize = some blk)
      (magic : ehMagic (bufferMemory (junk before.reads.length) blk) = EXT4_EXT_MAGIC)
      (below : ehDepth (bufferMemory (junk before.reads.length) blk) = ehDepth eh - 1) :
      ExtentVisits p junk ino dataBlocks fuel
        { before with
          dataBlocks := before.dataBlocks.map fun b => (b.set (ext4ExtentIdxLeafBlock eh i)).2
          reads := before.reads ++ [ext4ExtentIdxLeafBlock eh i] }
        (bufferMemory (junk before.reads.length) blk) p.blockSize

/-- A call reads record `i`: a leaf copies all its records, an index is read up to the first child that is refused. -/
def ExtentRecordRead (p : Ext2Editor) (junk : Nat → Memory) (fuel : Nat) (it : ExtentIterator) (eh : Memory) (i : Nat) : Prop :=
  i < ehEntries eh ∧
    (0 < ehDepth eh → ∃ before, extentIteratorChildren p junk (extentIteratorAppending p junk fuel) eh 0 i it = .ok before)

def ExtentRecordPrinted (eh : Memory) (i : Nat) : Prop := i < ehEntries eh

def RecordInside (size i : Nat) : Prop := sizeofExt4ExtentHeader + i * sizeofExt4Extent + sizeofExt4Extent ≤ size

def extentCapacity (size : Nat) : Nat := (size - sizeofExt4ExtentHeader) / sizeofExt4Extent

/-- The records of a header have room, or a child of an index is refused in front of the first one that has not. -/
def ExtentHeaderFits (p : Ext2Editor) (junk : Nat → Memory) (fuel : Nat) (it : ExtentIterator) (eh : Memory) (size : Nat) : Prop :=
  ehEntries eh ≤ extentCapacity size ∨ 0 < ehDepth eh ∧
    ∀ before, extentIteratorChildren p junk (extentIteratorAppending p junk fuel) eh 0 (extentCapacity size) it ≠ .ok before

def ExtentRecordsInside (p : Ext2Editor) (junk : Nat → Memory) (ino : Nat) (dataBlocks : Option Bitmask) : Prop :=
  ∀ fuel it eh size, ExtentVisits p junk ino dataBlocks fuel it eh size →
    (∀ i, ExtentRecordRead p junk fuel it eh i → RecordInside size i)

theorem recordInside_iff (size i : Nat) : RecordInside size i ↔ i < extentCapacity size := by
  unfold RecordInside extentCapacity sizeofExt4ExtentHeader sizeofExt4Extent
  omega

section Children

variable {p : Ext2Editor} {junk : Nat → Memory} {appending : ExtentIterator → Memory → ExtentM ExtentIterator} {eh : Memory}

theorem extentIteratorChildren_prefix {i count more : Nat} {it later : ExtentIterator}
    (taken : extentIteratorChildren p junk appending eh i (count + more) it = .ok later) :
    ∃ before, extentIteratorChildren p junk appending eh i count it = .ok before := by
  induction count generalizing i it with
  | zero => exact ⟨it, rfl⟩
  | succ count ih =>
    rw [Nat.succ_add, extentIteratorChildren] at taken
    rw [extentIteratorChildren]
    cases read : ext2ReadBlocks p (ext4ExtentIdxLeafBlock eh i) 1 p.blockSize with
    | none =>
      rw [read] at taken
      cases taken
    | some blk =>
      rw [read] at taken
      simp only [bind, Except.bind] at taken ⊢
      split at taken
      · cases taken
      rename_i magic
      rw [if_neg magic]
      split at taken
      · cases taken
      rename_i depth
      rw [if_neg depth]
      split at taken
      · cases taken
      exact ih taken

end Children

theorem extentHeader_inside_iff (p : Ext2Editor) (junk : Nat → Memory) (fuel : Nat) (it : ExtentIterator) (eh : Memory)
    (size : Nat) : (∀ i, ExtentRecordRead p junk fuel it eh i → RecordInside size i) ↔ ExtentHeaderFits p junk fuel it eh size := by
  constructor
  · intro inside
    by_cases room : ehEntries eh ≤ extentCapacity size
    · exact .inl room
    · have outside : ¬ ExtentRecordRead p junk fuel it eh (extentCapacity size) := fun read =>
        absurd ((recordInside_iff _ _).mp (inside _ read)) (Nat.lt_irrefl _)
      refine .inr ⟨?_, fun before taken => outside ⟨Nat.not_le.mp room, fun _ => ⟨before, taken⟩⟩⟩
      by_contra leaf
      exact outside ⟨Nat.not_le.mp room, fun index => absurd index leaf⟩
  · rintro fits i ⟨less, taken⟩
    rw [recordInside_iff]
    rcases fits with room | ⟨index, refused⟩
    · exact Nat.lt_of_lt_of_le less room
    · by_contra far
      rcases taken index with ⟨later, all⟩
      rw [← Nat.add_sub_cancel' (Nat.not_lt.mp far)] at all
      rcases extentIteratorChildren_prefix all with ⟨before, some⟩
      exact refused before some

/-- The iterator reads inside of the containers exactly if all headers fit that it comes to, and the printer exactly if
the records have room. -/
theorem extentRecords_inside_iff (p : Ext2Editor) (junk : Nat → Memory) (ino : Nat) (dataBlocks : Option Bitmask) :
    (ExtentRecordsInside p junk ino dataBlocks ↔ ∀ fuel it eh size, ExtentVisits p junk ino dataBlocks fuel it eh size →
      ExtentHeaderFits p junk fuel it eh size) ∧
    ∀ eh size, (∀ i, ExtentRecordPrinted eh i → RecordInside size i) ↔ ehEntries eh ≤ extentCapacity size := by
  constructor
  · exact forall₄_congr fun fuel it eh size => forall_congr' fun _ => extentHeader_inside_iff p junk fuel it eh size
  · intro eh size
    constructor
    · intro inside
      by_contra many
      exact absurd ((recordInside_iff _ _).mp (inside _ (Nat.not_le.mp many))) (Nat.lt_irrefl _)
    · intro room i printed
      exact (recordInside_iff size i).mpr (Nat.lt_of_lt_of_le printed room)

def fiveExtentsImage : File :=
  let f := File.empty.writeAt (5248 + 32) [0, 0, 8, 0]
  let f := f.writeAt (5248 + 40) [0x0a, 0xf3, 5, 0, 4, 0, 0, 0]
  f.writeAt 8191 [0]

def fiveExtentsEditor : Ext2Editor := ⟨⟨fiveExtentsImage, 0, 0⟩, 1024, 128, 1, 16, [5]⟩

theorem fiveExtents_header :
    let inode := fiveExtentsImage.slice 5248 128
    let eh := inodeExtentHeader (fun _ => 0#8) inode
    ext2ReadInode fiveExtentsEditor 2 = some inode ∧ leField inode 32 4 &&& EXT4_EXTENTS_FL ≠ 0 ∧
      ehMagic eh = EXT4_EXT_MAGIC ∧ ehDepth eh = 0 ∧ ehEntries eh = 5 := by
  decide +kernel

theorem extentRecords_outside : ¬ ExtentRecordsInside fiveExtentsEditor (fun _ _ => 0#8) 2 none := by
  intro inside
  rcases fiveExtents_header with ⟨read, flag, magic, depth, entries⟩
  have last := inside _ _ _ _ (.root read flag magic (by omega)) 4 ⟨by omega, fun index => absurd index (by omega)⟩
  exact absurd ((recordInside_iff _ _).mp last) (by decide)

end ImgEditor
