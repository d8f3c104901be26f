import ImgEditor.Fs.ExtentTree
import ImgEditor.Storage.Clip

namespace ImgEditor

open Storage

/-! ## The content of a file that is mapped by extents -/

/-- The blocks of an extent; a length above 32768 marks one that was not written yet. -/
def extentBlocks (ee : Ext4Extent) : Nat := if ee.eeLen ≤ 32768 then ee.eeLen else ee.eeLen - 32768

/-- The extents of a tree in their order. -/
structure ExtentsValid (p : Ext2Editor) (extents : List Ext4Extent) : Prop where
  nonempty : ∀ ee ∈ extents, 0 < extentBlocks ee
  apart : extents.Pairwise fun ee next => ee.eeBlock + extentBlocks ee ≤ next.eeBlock
  stored : ∀ ee ∈ extents,
    p.fd.start + (ext4ExtentStartBlock ee + extentBlocks ee) * p.blockSize ≤ p.fd.file.size

/-- A tree whose leaves below the root are not empty, with valid extents. -/
structure ValidExtentTree (p : Ext2Editor) (inode : List Byte) (depth : Nat) (tree : ExtentTree depth) : Prop
    extends ExtentTreeOf p inode depth tree where
  filled : depth ≠ 0 → [] ∉ tree.groups depth
  extents : ExtentsValid p (tree.leaves depth)

def CoversBlock (ee : Ext4Extent) (k : Nat) : Prop := ee.eeBlock ≤ k ∧ k < ee.eeBlock + extentBlocks ee

instance (ee : Ext4Extent) (k : Nat) : Decidable (CoversBlock ee k) := inferInstanceAs (Decidable (_ ∧ _))

/-- A byte of the file: of the block in a written extent, else zero. -/
def Ext4FileByte (p : Ext2Editor) (extents : List Ext4Extent) (o : Nat) (value : Byte) : Prop :=
  (∀ ee ∈ extents, ee.eeLen ≤ 32768 → CoversBlock ee (o / p.blockSize) → value = p.fd.file.byte
    (p.fd.start + (ext4ExtentStartBlock ee + (o / p.blockSize - ee.eeBlock)) * p.blockSize + o % p.blockSize)) ∧
  ((∀ ee ∈ extents, ee.eeLen ≤ 32768 → ¬ CoversBlock ee (o / p.blockSize)) → value = 0#8)

/-- The extents that begin below a size are written, and all of them begin below 4 GiB. -/
structure ExtentsPlain (p : Ext2Editor) (size : Nat) (extents : List Ext4Extent) : Prop where
  written : ∀ ee ∈ extents, ee.eeBlock * p.blockSize < size → ee.eeLen ≤ 32768
  near : ∀ ee ∈ extents, ee.eeBlock * p.blockSize < 2^32

def ExtentsFit (p : Ext2Editor) (size : Nat) (extents : List Ext4Extent) : Prop :=
  (∀ ee ∈ extents, (ee.eeBlock + extentBlocks ee) * p.blockSize ≤ size) ∨
    ∀ k, k * p.blockSize < size → ∃ ee ∈ extents, CoversBlock ee k

theorem ValidExtentTree.iterator {p : Ext2Editor} {ino depth : Nat} {inode : List Byte} {tree : ExtentTree depth}
    (valid : ValidExtentTree p inode depth tree) (read : ext2ReadInode p ino = some inode) (junk : Nat → Memory)
    (dataBlocks : Option Bitmask) :
    ∃ it, extentIteratorInit p junk 6 ino dataBlocks = .ok it ∧ it.parent.getD [] = tree.leaves depth := by
  have filled : ¬ [[], []] <+: tree.groups depth := by
    rintro ⟨rest, groups⟩
    rcases Nat.eq_zero_or_pos depth with rfl | deep
    · cases congrArg List.length groups
    · apply valid.filled (by omega)
      rw [← groups]
      exact List.mem_cons_self
  rcases appendLeaves_flatten filled with ⟨parent, list, flat⟩
  have appended := extentIteratorInit_appended read valid.toExtentTreeOf junk 6 (Nat.le_refl 6) dataBlocks
  rw [ExtentsAppended, list] at appended
  rcases appended with ⟨marked, result⟩
  exact ⟨_, result, flat⟩

theorem ExtentsAt.lengths {p : Ext2Editor} {depth : Nat} {tree : ExtentTree depth} {buf : List Byte}
    (stored : ExtentsAt p depth tree buf) : ∀ ee ∈ tree.leaves depth, ee.eeLen < 2 ^ 16 := by
  induction depth generalizing buf with
  | zero =>
    intro ee member
    rcases List.mem_flatten.mp member with ⟨leaf, single, inside⟩
    obtain rfl := List.mem_singleton.mp single
    rcases List.mem_iff_getElem?.mp inside with ⟨i, found⟩
    rw [← stored.2 i ee found]
    exact memField_lt _ _ 2
  | succ depth ih =>
    intro ee member
    change ee ∈ ((tree : List (Nat × ExtentTree depth)).flatMap fun child => child.2.groups depth).flatten at member
    rcases List.mem_flatten.mp member with ⟨leaf, groups, inside⟩
    rcases List.mem_flatMap.mp groups with ⟨child, among, group⟩
    rcases List.mem_iff_getElem?.mp among with ⟨i, found⟩
    exact ih (stored.2 i child found).2.2 ee (List.mem_flatten.mpr ⟨leaf, group, inside⟩)

/-! ## The extents as copies -/

/-- The copy that is made for an extent when its length is taken as it stands there. -/
def extentCopy (p : Ext2Editor) (ee : Ext4Extent) : Copy :=
  ⟨p.fd.start + ext4ExtentStartBlock ee * p.blockSize, ee.eeBlock * p.blockSize, ee.eeLen * p.blockSize⟩

theorem extent_bytes {p : Ext2Editor} {ee : Ext4Extent} (small : p.blockSize ≤ 65536) (length : ee.eeLen < 2^16) :
    p.blockSize * ee.eeLen % 2^32 = ee.eeLen * p.blockSize := by
  rw [Nat.mul_comm]
  have product := Nat.mul_le_mul (Nat.le_of_lt_succ length) small
  exact Nat.mod_eq_of_lt (by omega)

theorem extent_place {p : Ext2Editor} {ee : Ext4Extent} (offsets : p.fd.file.size < 2^63)
    (stored : p.fd.start + (ext4ExtentStartBlock ee + extentBlocks ee) * p.blockSize ≤ p.fd.file.size) :
    p.fd.start + ext4ExtentStartBlock ee * p.blockSize < 2^63 := by
  rw [Nat.add_mul] at stored
  omega

section Copies

variable {p : Ext2Editor} {size : Nat} {extents : List Ext4Extent}

theorem extentBlocks_written {ee : Ext4Extent} (written : ee.eeLen ≤ 32768) : extentBlocks ee = ee.eeLen := if_pos written

theorem extentBlocks_le (ee : Ext4Extent) : extentBlocks ee ≤ ee.eeLen := by
  unfold extentBlocks
  split <;> omega

theorem extentCopies_ordered (positive : 0 < p.blockSize) (valid : ExtentsValid p extents)
    (written : ∀ ee ∈ extents, ee.eeBlock * p.blockSize < size → ee.eeLen ≤ 32768) {start : Nat}
    (behind : ∀ ee ∈ extents, start ≤ ee.eeBlock * p.blockSize) :
    Copy.InOrder size start (extents.map (extentCopy p)) := by
  rcases valid with ⟨nonempty, apart, -⟩
  induction extents generalizing start with
  | nil => trivial
  | cons ee rest ih =>
    rcases List.pairwise_cons.mp apart with ⟨next, later⟩
    rw [List.forall_mem_cons] at nonempty written behind
    have some := nonempty.1.trans_le (extentBlocks_le ee)
    refine ⟨behind.1, Nat.mul_pos some positive, ?_, ?_⟩
    · intro below
      refine ih written.2 ?_ nonempty.2 later
      intro other member
      have bound := Nat.mul_le_mul_right p.blockSize (next other member)
      rw [extentBlocks_written (written.1 below), Nat.add_mul] at bound
      exact bound
    · intro beyond
      rw [List.forall_mem_map]
      intro other member
      have bound := Nat.mul_le_mul_right p.blockSize ((Nat.le_add_right _ _).trans (next other member))
      exact beyond.trans bound

theorem block_inside (positive : 0 < p.blockSize) {first count o : Nat} :
    first * p.blockSize ≤ o ∧ o < first * p.blockSize + count * p.blockSize ↔
      first ≤ o / p.blockSize ∧ o / p.blockSize < first + count := by
  rw [← Nat.add_mul, Nat.le_div_iff_mul_le positive, Nat.div_lt_iff_lt_mul positive]

theorem extentCopy_covers (positive : 0 < p.blockSize) {ee : Ext4Extent} (written : ee.eeLen ≤ 32768) {o : Nat} :
    (extentCopy p ee).pos ≤ o ∧ o < (extentCopy p ee).stop ↔ CoversBlock ee (o / p.blockSize) := by
  unfold CoversBlock
  rw [extentBlocks_written written]
  exact block_inside positive

/-- Below the size the clipped copies of the extents make up the file. -/
theorem extentCopies_bytes (positive : 0 < p.blockSize) (valid : ExtentsValid p extents)
    (written : ∀ ee ∈ extents, ee.eeBlock * p.blockSize < size → ee.eeLen ≤ 32768) {file : File} {o : Nat} (below : o < size)
    (zero : file.byte o = 0#8) :
    Ext4FileByte p extents o ((Copy.copyAll p.fd.file (Copy.clip (extents.map (extentCopy p)) size) file).byte o) := by
  have ordered := @extentCopies_ordered p size extents positive valid written 0 fun _ _ => Nat.zero_le _
  have whole : ∀ c ∈ extents.map (extentCopy p), c.pos < size → c.place + c.len ≤ p.fd.file.size := by
    rw [List.forall_mem_map]
    intro ee member less
    have stored := valid.stored ee member
    rw [extentBlocks_written (written ee member less), Nat.add_mul, ← Nat.add_assoc] at stored
    exact stored
  have bytes := @Copy.copyAll_clip_byte size 0 size _ p.fd.file ordered (by omega) whole file o below
  constructor
  · intro ee member plain covers
    have inside := (extentCopy_covers positive plain).mpr covers
    rw [bytes.1 _ (List.mem_map_of_mem member) inside.1 inside.2]
    have split := Nat.div_add_mod o p.blockSize
    have scaled := Nat.mul_le_mul_right p.blockSize covers.1
    rw [Nat.mul_comm] at split
    refine congrArg p.fd.file.byte ?_
    dsimp only [extentCopy]
    rw [Nat.add_mul, Nat.sub_mul]
    omega
  · intro none
    rw [bytes.2, zero]
    rintro ⟨c, among, front, stop⟩
    rcases List.mem_map.mp among with ⟨ee, member, rfl⟩
    have plain := written ee member (by
      have pos : (extentCopy p ee).pos = ee.eeBlock * p.blockSize := rfl
      omega)
    exact none ee member plain ((extentCopy_covers positive plain).mp ⟨front, stop⟩)

theorem extentCopies_within (positive : 0 < p.blockSize) (nonempty : ∀ ee ∈ extents, 0 < extentBlocks ee)
    (written : ∀ ee ∈ extents, ee.eeBlock * p.blockSize < size → ee.eeLen ≤ 32768) :
    (∀ c ∈ extents.map (extentCopy p), c.stop ≤ size) ↔
      ∀ ee ∈ extents, (ee.eeBlock + extentBlocks ee) * p.blockSize ≤ size := by
  rw [List.forall_mem_map]
  apply forall₂_congr
  intro ee member
  have some := Nat.mul_pos (nonempty ee member) positive
  have raw := Nat.mul_le_mul_right p.blockSize (extentBlocks_le ee)
  dsimp only [extentCopy, Copy.stop]
  rw [Nat.add_mul]
  by_cases below : ee.eeBlock * p.blockSize < size
  · rw [extentBlocks_written (written ee member below)]
  · constructor <;> intro stop <;> omega

theorem extentCopies_covered (positive : 0 < p.blockSize)
    (written : ∀ ee ∈ extents, ee.eeBlock * p.blockSize < size → ee.eeLen ≤ 32768) :
    (∀ o < size, Copy.Covers (extents.map (extentCopy p)) o) ↔
      ∀ k, k * p.blockSize < size → ∃ ee ∈ extents, CoversBlock ee k := by
  constructor
  · intro covered k below
    rcases covered _ below with ⟨c, among, front, stop⟩
    rcases List.mem_map.mp among with ⟨ee, member, rfl⟩
    have pos : (extentCopy p ee).pos = ee.eeBlock * p.blockSize := rfl
    have block := (extentCopy_covers positive (written ee member (by omega))).mp ⟨front, stop⟩
    rw [Nat.mul_div_cancel _ positive] at block
    exact ⟨ee, member, block⟩
  · intro covered o below
    rcases covered (o / p.blockSize) ((Nat.div_mul_le_self _ _).trans_lt below) with ⟨ee, member, block⟩
    have first := (Nat.mul_le_mul_right p.blockSize block.1).trans (Nat.div_mul_le_self _ _)
    exact ⟨_, List.mem_map_of_mem member, (extentCopy_covers positive (written ee member (by omega))).mpr block⟩

end Copies

/-- Copies that end at the size or in front of it, or a copy that goes over it. -/
theorem extentCopies_clipped {p : Ext2Editor} {size : Nat} {extents : List Ext4Extent} (positive : 0 < p.blockSize)
    (valid : ExtentsValid p extents) (written : ∀ ee ∈ extents, ee.eeBlock * p.blockSize < size → ee.eeLen ≤ 32768) :
    ExtentsFit p size extents ∧ (∀ d ∈ Copy.clip (extents.map (extentCopy p)) size, d.len = 0 ∨ d.stop ≤ size) ∨
      ¬ ExtentsFit p size extents ∧
        Copy.Overflows size (extents.map (extentCopy p)) (Copy.clip (extents.map (extentCopy p)) size) := by
  have ordered := @extentCopies_ordered p size extents positive valid written 0 fun _ _ => Nat.zero_le _
  have within := extentCopies_within positive valid.nonempty written
  have covered := @extentCopies_covered p size extents positive written
  unfold ExtentsFit
  rw [← within, ← covered]
  by_cases full : ∀ c ∈ extents.map (extentCopy p), c.stop ≤ size
  · refine .inl ⟨.inl full, ?_⟩
    rw [Copy.clip_within ordered (by omega) full]
    exact fun d member => .inr (full d member)
  by_cases solid : ∀ o < size, Copy.Covers (extents.map (extentCopy p)) o
  · refine .inl ⟨.inr solid, ?_⟩
    exact (Copy.clip_covered ordered fun o _ below => solid o below).1
  · refine .inr ⟨not_or.mpr ⟨full, solid⟩, ?_⟩
    simp only [not_forall, Nat.not_le] at full solid
    rcases solid with ⟨o, below, gap⟩
    rcases full with ⟨c, member, long⟩
    exact Copy.clip_gap ordered ⟨o, Nat.zero_le _, below, gap⟩ ⟨c, member, long⟩

/-- Of a piece that goes over the size as many bytes can be read: all, or, when it begins behind the size, the first one. -/
theorem extentCopies_over {p : Ext2Editor} {size : Nat} {extents : List Ext4Extent} (positive : 0 < p.blockSize)
    (valid : ExtentsValid p extents) (written : ∀ ee ∈ extents, ee.eeBlock * p.blockSize < size → ee.eeLen ≤ 32768) {d : Copy}
    (some : 0 < d.len) (exceeds : size < d.stop)
    (origin : ∃ c ∈ extents.map (extentCopy p), d.place = c.place ∧ d.pos = c.pos ∧ d.len ≤ c.len) :
    ∃ n, 0 < n ∧ d.place + n ≤ p.fd.file.size ∧ size < d.pos + n ∧ (d.pos < size ∧ n = d.len ∨ n = 1 ∧ n ≤ d.len) := by
  rcases origin with ⟨c, among, place, pos, len⟩
  rcases List.mem_map.mp among with ⟨ee, member, rfl⟩
  have stored := valid.stored ee member
  have room := Nat.mul_pos (valid.nonempty ee member) positive
  have start : (extentCopy p ee).place = p.fd.start + ext4ExtentStartBlock ee * p.blockSize := rfl
  have length : (extentCopy p ee).len = ee.eeLen * p.blockSize := rfl
  have front : (extentCopy p ee).pos = ee.eeBlock * p.blockSize := rfl
  rw [Nat.add_mul] at stored
  unfold Copy.stop at exceeds
  by_cases below : d.pos < size
  · rw [extentBlocks_written (written ee member (by omega))] at stored
    exact ⟨d.len, some, by omega, exceeds, .inl ⟨below, rfl⟩⟩
  · exact ⟨1, Nat.one_pos, by omega, by omega, .inr ⟨rfl, some⟩⟩

/-! Images of 8 blocks of 1 KiB whose inode 2 has an extent for block 6 and one for block 7. -/

def extentImage (mode size second : Nat) : File :=
  let f := File.empty.writeAt 5248 (leBytes 2 mode ++ [0, 0] ++ leBytes 4 size)
  let f := f.writeAt (5248 + 32) (leBytes 4 EXT4_EXTENTS_FL)
  let f := f.writeAt (5248 + 40) ([0x0a, 0xf3, 2, 0, 4, 0, 0, 0, 0, 0, 0, 0] ++ leBytes 4 0 ++ [1, 0, 0, 0] ++ leBytes 4 6 ++
    leBytes 4 second ++ [1, 0, 0, 0] ++ leBytes 4 7)
  f.writeAt 6144 (1 :: List.replicate 2046 0 ++ [2])

def extentEditor (mode size second : Nat) : Ext2Editor := ⟨⟨extentImage mode size second, 0, 0⟩, 1024, 128, 1, 16, [5]⟩

def extentInode (mode size second : Nat) : List Byte := (extentImage mode size second).slice 5248 128

def twoExtents (second : Nat) : ExtentTree 0 := [(⟨0, 1, 0, 6⟩ : Ext4Extent), ⟨second, 1, 0, 7⟩]

def extentSamples : List (Nat × Nat × Nat) :=
  [(0x81a4, 1500, 1), (0x81a4, 2500, 2), (0x81a4, 3072, 2), (0x41ed, 2048, 1), (0x41ed, 3072, 2)]

theorem extentSamples_stored : ∀ sample ∈ extentSamples,
    let mode := sample.1
    let size := sample.2.1
    let second := sample.2.2
    let inode := extentInode mode size second
    let node := field inode 40 60
    ext2ReadInode (extentEditor mode size second) 2 = some inode ∧
      (0 < second ∧ (extentImage mode size second).size = 8192 ∧ leField inode 32 4 &&& EXT4_EXTENTS_FL ≠ 0) ∧
      (leField node 0 2 = EXT4_EXT_MAGIC ∧ leField node 6 2 = 0 ∧ leField node 2 2 = 2 ∧ 12 + 12 * 2 ≤ node.length) ∧
      (List.range 2).map (ext4Extent (bufferMemory (fun _ => 0#8) node)) = [⟨0, 1, 0, 6⟩, ⟨second, 1, 0, 7⟩] := by
  decide +kernel

theorem twoExtents_read {mode size second : Nat} (sample : (mode, size, second) ∈ extentSamples) :
    ext2ReadInode (extentEditor mode size second) 2 = some (extentInode mode size second) :=
  (extentSamples_stored _ sample).1

theorem twoExtents_valid {mode size second : Nat} (sample : (mode, size, second) ∈ extentSamples) :
    ValidExtentTree (extentEditor mode size second) (extentInode mode size second) 0 (twoExtents second) := by
  rcases extentSamples_stored _ sample with ⟨-, ⟨behind, length, flag⟩, ⟨magic, level, count, space⟩, entries⟩
  have file : (extentEditor mode size second).fd.file.size = 8192 := length
  have room : (extentEditor mode size second).blockSize = 1024 := rfl
  have start : (extentEditor mode size second).fd.start = 0 := rfl
  refine ⟨⟨by omega, by omega, flag, by decide, ⟨⟨magic, level, count, space⟩, ?_⟩, List.nodup_nil⟩,
    fun deep => absurd rfl deep, ?_, ?_, ?_⟩
  · intro i ee found
    have inside : i < 2 := (List.getElem?_eq_some_iff.mp found).1
    have entry := congrArg (·[i]?) entries
    rw [List.getElem?_map, List.getElem?_range inside] at entry
    exact Option.some.inj (entry.trans found)
  · intro ee member
    rcases List.mem_pair.mp member with rfl | rfl
    · exact Nat.one_pos
    · exact Nat.one_pos
  · exact List.pairwise_pair.mpr behind
  · intro ee member
    rw [file, room, start]
    rcases List.mem_pair.mp member with rfl | rfl
    · decide
    · change 0 + (0 * 2^32 + 7 + 1) * 1024 ≤ 8192
      decide

theorem twoExtents_all {second : Nat} {P : Ext4Extent → Prop} (first : P ⟨0, 1, 0, 6⟩) (last : P ⟨second, 1, 0, 7⟩) :
    ∀ ee ∈ (twoExtents second).leaves 0, P ee := by
  intro ee member
  rcases List.mem_pair.mp member with rfl | rfl
  · exact first
  · exact last

end ImgEditor
