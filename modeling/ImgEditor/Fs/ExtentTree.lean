import ImgEditor.Fs.Ext2
import ImgEditor.Storage.LevelTree
import ImgEditor.Storage.Record
import Mathlib.Data.List.Nodup

namespace ImgEditor

open Storage

/-- An extent tree of the given depth: child blocks above, extents in the leaves. -/
abbrev ExtentTree := LevelTree Nat Ext4Extent

def Memory.StartsWith (m : Memory) (buf : List Byte) : Prop := ∀ i, i < buf.length → m i = buf.getD i 0#8

structure ExtentHeaderAt (buf : List Byte) (depth count : Nat) : Prop where
  magic : leField buf 0 2 = EXT4_EXT_MAGIC
  depth : leField buf 6 2 = depth
  entries : leField buf 2 2 = count
  room : 12 + 12 * count ≤ buf.length

/-- A well formed tree below the node in a buffer: a child block lies in the image and is a node of the next level. -/
def ExtentsAt (p : Ext2Editor) : (depth : Nat) → ExtentTree depth → List Byte → Prop
  | 0, (records : List Ext4Extent), buf =>
    ExtentHeaderAt buf 0 records.length ∧
      ∀ i ee, records[i]? = some ee → ext4Extent (bufferMemory (fun _ => 0#8) buf) i = ee
  | depth + 1, (children : List (Nat × ExtentTree depth)), buf =>
    ExtentHeaderAt buf (depth + 1) children.length ∧
      ∀ i child, children[i]? = some child →
        ext4ExtentIdxLeafBlock (bufferMemory (fun _ => 0#8) buf) i = child.1 ∧
        p.fd.start + child.1 * p.blockSize + p.blockSize ≤ p.fd.file.size ∧
        ExtentsAt p depth child.2 (p.fd.file.slice (p.fd.start + child.1 * p.blockSize) p.blockSize)

/-- A well formed extent tree in the `i_block` of an inode. -/
structure ExtentTreeOf (p : Ext2Editor) (inode : List Byte) (depth : Nat) (tree : ExtentTree depth) : Prop where
  blockSize : 1024 ≤ p.blockSize ∧ p.blockSize ≤ 65536
  offsets : p.fd.file.size < 2^63
  flag : leField inode 32 4 &&& EXT4_EXTENTS_FL ≠ 0
  shallow : depth ≤ 5
  root : ExtentsAt p depth tree (field inode 40 60)
  apart : (tree.keys depth).Nodup

theorem bufferMemory_startsWith (junk : Nat → Byte) (buf : List Byte) : (bufferMemory junk buf).StartsWith buf :=
  fun _ inside => if_pos inside

namespace Memory.StartsWith

variable {m : Memory} {buf : List Byte}

theorem field (starts : m.StartsWith buf) {offset width : Nat} (inside : offset + width ≤ buf.length) :
    memField m offset width = leField buf offset width := by
  unfold memField leField
  congr 1
  apply List.ext_getElem
  · rw [List.length_map, List.length_range, List.length_take, List.length_drop]
    omega
  · intro i bound _
    rw [List.length_map, List.length_range] at bound
    rw [List.getElem_map, List.getElem_range, starts _ (by omega), List.getElem_take, List.getElem_drop,
      List.getD_eq_getElem _ _ (by omega)]

theorem field_zero (starts : m.StartsWith buf) {offset width : Nat} (inside : offset + width ≤ buf.length) :
    memField m offset width = memField (bufferMemory (fun _ => 0#8) buf) offset width := by
  rw [starts.field inside, (bufferMemory_startsWith _ buf).field inside]

theorem extent (starts : m.StartsWith buf) {i : Nat} (inside : 12 + 12 * i + 12 ≤ buf.length) :
    ext4Extent m i = ext4Extent (bufferMemory (fun _ => 0#8) buf) i := by
  simp only [ext4Extent]
  rw [starts.field_zero (by omega), starts.field_zero (by omega), starts.field_zero (by omega),
    starts.field_zero (by omega)]

theorem leafBlock (starts : m.StartsWith buf) {i : Nat} (inside : 12 + 12 * i + 12 ≤ buf.length) :
    ext4ExtentIdxLeafBlock m i = ext4ExtentIdxLeafBlock (bufferMemory (fun _ => 0#8) buf) i := by
  simp only [ext4ExtentIdxLeafBlock]
  rw [starts.field_zero (by omega), starts.field_zero (by omega)]

end Memory.StartsWith

/-! ## The recursion ends -/

theorem extentIteratorChildren_finishes {p : Ext2Editor} {junk : Nat → Memory}
    {appending : ExtentIterator → Memory → ExtentM ExtentIterator} {eh : Memory}
    (child : ∀ it m, ehDepth m = ehDepth eh - 1 → appending it m ≠ .error .unfinished) (i count : Nat) (it : ExtentIterator) :
    extentIteratorChildren p junk appending eh i count it ≠ .error .unfinished := by
  induction count generalizing i it with
  | zero => exact nofun
  | succ count ih =>
    rw [extentIteratorChildren]
    rcases ext2ReadBlocks p (ext4ExtentIdxLeafBlock eh i) 1 p.blockSize with _ | blk
    · exact nofun
    simp only [bind, Except.bind]
    split
    · exact nofun
    split
    · exact nofun
    rename_i depth
    have finished := child { it with
      dataBlocks := it.dataBlocks.map fun b => (b.set (ext4ExtentIdxLeafBlock eh i)).2
      reads := it.reads ++ [ext4ExtentIdxLeafBlock eh i] } _ (Decidable.not_not.mp depth)
    split
    · rename_i fail failed
      intro same
      rw [failed] at finished
      exact finished same
    · exact ih _ _

/-- A child lies one level below its parent, so the depth of the root bounds the recursion. -/
theorem extentIteratorAppending_finishes (p : Ext2Editor) (junk : Nat → Memory) (fuel : Nat) (it : ExtentIterator) (eh : Memory)
    (enough : ehDepth eh < fuel) : extentIteratorAppending p junk fuel it eh ≠ .error .unfinished := by
  induction fuel generalizing it eh with
  | zero => omega
  | succ fuel ih =>
    rw [extentIteratorAppending]
    split
    · apply extentIteratorChildren_finishes
      intro it m below
      exact ih it m (by omega)
    · dsimp only [extentIteratorLeaf]
      split <;> exact nofun

/-! ## The leaves, from left to right -/

/-- What appending the leaves one by one makes of the list; `none` when an empty list is grown by nothing. -/
def appendLeaves {α : Type} (parent : Option (List α)) : List (List α) → Option (Option (List α))
  | [] => some parent
  | leaf :: rest =>
    if parent.getD [] ++ leaf = [] ∧ parent.isSome then none
    else appendLeaves (some (parent.getD [] ++ leaf)) rest

theorem appendLeaves_append {α : Type} (parent : Option (List α)) (left right : List (List α)) :
    appendLeaves parent (left ++ right) = (appendLeaves parent left).bind fun mid => appendLeaves mid right := by
  induction left generalizing parent with
  | nil => rfl
  | cons leaf rest ih =>
    simp only [List.cons_append, appendLeaves]
    split
    · rfl
    · exact ih _

theorem appendLeaves_nonempty {α : Type} (old : List α) (filled : old ≠ []) (leaves : List (List α)) :
    appendLeaves (some old) leaves = some (some (old ++ leaves.flatten)) := by
  induction leaves generalizing old with
  | nil => simp [appendLeaves]
  | cons leaf rest ih =>
    have more : old ++ leaf ≠ [] := by simp [filled]
    have grown : ¬ ((some old).getD [] ++ leaf = [] ∧ (some old).isSome) := fun empty => more empty.1
    rw [appendLeaves, if_neg grown, Option.getD_some, ih _ more, List.flatten_cons, List.append_assoc]

theorem appendLeaves_empty {α : Type} {leaves : List (List α)} (empty : [[], []] <+: leaves) :
    appendLeaves none leaves = none := by
  obtain ⟨rest, rfl⟩ := empty
  simp [appendLeaves]

theorem appendLeaves_flatten {α : Type} {leaves : List (List α)} (filled : ¬ [[], []] <+: leaves) :
    ∃ parent, appendLeaves none leaves = some parent ∧ parent.getD [] = leaves.flatten := by
  match leaves with
  | [] => exact ⟨none, rfl, rfl⟩
  | [leaf] => exact ⟨some leaf, by simp [appendLeaves], by simp⟩
  | leaf :: second :: rest =>
    have more : leaf ++ second ≠ [] := by
      intro none
      obtain ⟨rfl, rfl⟩ := List.append_eq_nil_iff.mp none
      exact filled ⟨rest, rfl⟩
    refine ⟨some (leaf ++ second ++ rest.flatten), ?_, by simp⟩
    simp only [appendLeaves, Option.getD_none, List.nil_append, Option.isSome_none, Bool.false_eq_true, and_false,
      Option.getD_some, more, false_and, ↓reduceIte]
    exact appendLeaves_nonempty _ more rest

def ExtentsAppended (it : ExtentIterator) (leaves : List (List Ext4Extent)) (blocks : List Nat)
    (result : ExtentM ExtentIterator) : Prop :=
  match appendLeaves it.parent leaves with
  | none => result = .error .error
  | some parent => ∃ dataBlocks, result =
      .ok ⟨it.inode, parent, (parent.getD []).length, dataBlocks, it.reads ++ blocks⟩

theorem ExtentsAt.header {p : Ext2Editor} {depth : Nat} {tree : ExtentTree depth} {buf : List Byte}
    (stored : ExtentsAt p depth tree buf) {eh : Memory} (starts : eh.StartsWith buf) :
    ehMagic eh = EXT4_EXT_MAGIC ∧ ehDepth eh = depth := by
  cases depth with
  | zero =>
    have room := stored.1.room
    rw [ehMagic, ehDepth, starts.field (by omega), starts.field (by omega)]
    exact ⟨stored.1.magic, stored.1.depth⟩
  | succ depth =>
    have room := stored.1.room
    rw [ehMagic, ehDepth, starts.field (by omega), starts.field (by omega)]
    exact ⟨stored.1.magic, stored.1.depth⟩

theorem ext2ReadBlocks_inside (p : Ext2Editor) (blkno : Nat) (size : 1024 ≤ p.blockSize ∧ p.blockSize ≤ 65536)
    (offsets : p.fd.file.size < 2^63) (inside : p.fd.start + blkno * p.blockSize + p.blockSize ≤ p.fd.file.size) :
    ext2ReadBlocks p blkno 1 p.blockSize =
      some (p.fd.file.slice (p.fd.start + blkno * p.blockSize) p.blockSize) := by
  generalize named : blkno * p.blockSize = offset at inside
  have wrapped : offset % 2^64 = offset := Nat.mod_eq_of_lt (by omega)
  have count : min (min (p.blockSize * 1 % 2^32) p.blockSize) 0x7ffff000 = p.blockSize := by omega
  have width : min (p.blockSize * 1 % 2^32) p.blockSize = p.blockSize := by omega
  have bytes : ((p.fd.fileseek offset).read p.blockSize).1 = p.fd.file.slice (p.fd.start + offset) p.blockSize := by
    rw [Fd.read_bytes _ _ (by omega), Fd.fileseek_file, Fd.fileseek_pos _ _ (by omega)]
    exact p.fd.file.readAt_full _ _ inside
  rw [ext2ReadBlocks, named, wrapped, width, bytes, File.slice_length, if_neg (by omega)]

theorem extentIteratorLeaf_appended (it : ExtentIterator) (counted : it.totalEntries = (it.parent.getD []).length)
    {buf : List Byte} {records : List Ext4Extent} {p : Ext2Editor} (stored : ExtentsAt p 0 records buf) {eh : Memory}
    (starts : eh.StartsWith buf) : ExtentsAppended it [records] [] (extentIteratorLeaf it eh) := by
  obtain ⟨header, entries⟩ := stored
  have room := header.room
  have count : ehEntries eh = records.length := by
    rw [ehEntries, starts.field (by omega), header.entries]
  have copied : (List.range records.length).map (ext4Extent eh) = records := by
    apply List.ext_getElem
    · simp
    · intro i _ bound
      rw [List.getElem_map, List.getElem_range, starts.extent (by omega)]
      exact entries i _ (List.getElem?_eq_getElem bound)
  have empty : it.totalEntries + records.length = 0 ↔ it.parent.getD [] ++ records = [] := by
    rw [counted, List.append_eq_nil_iff, ← List.length_eq_zero_iff, ← List.length_eq_zero_iff]
    omega
  simp only [ExtentsAppended, extentIteratorLeaf, count, copied, appendLeaves, empty]
  by_cases shrunk : it.parent.getD [] ++ records = [] ∧ it.parent.isSome
  · rw [if_pos shrunk, if_pos shrunk]
    rfl
  · rw [if_neg shrunk, if_neg shrunk]
    simp only [List.append_nil, Option.getD_some, List.length_append, ← counted]
    exact ⟨_, rfl⟩

theorem ExtentsAppended.bind {it : ExtentIterator} {first later : List (List Ext4Extent)} {blocks more : List Nat}
    {result : ExtentM ExtentIterator} {next : ExtentIterator → ExtentM ExtentIterator}
    (appended : ExtentsAppended it first blocks result)
    (rest : ∀ mid : ExtentIterator, mid.totalEntries = (mid.parent.getD []).length → ExtentsAppended mid later more (next mid)) :
    ExtentsAppended it (first ++ later) (blocks ++ more) (result >>= next) := by
  unfold ExtentsAppended at appended ⊢
  rw [appendLeaves_append]
  rcases part : appendLeaves it.parent first with _ | parent
  · rw [part] at appended
    simp only at appended
    rw [appended]
    rfl
  · rw [part] at appended
    obtain ⟨dataBlocks, here⟩ := appended
    have tail := rest ⟨it.inode, parent, (parent.getD []).length, dataBlocks, it.reads ++ blocks⟩ rfl
    rw [here, Option.bind_some]
    unfold ExtentsAppended at tail
    simp only [List.append_assoc] at tail
    exact tail

theorem ExtentsAppended.visit {it : ExtentIterator} {leaves : List (List Ext4Extent)} {blkno : Nat} {blocks : List Nat}
    {dataBlocks : Option Bitmask} {result : ExtentM ExtentIterator}
    (appended : ExtentsAppended { it with dataBlocks := dataBlocks, reads := it.reads ++ [blkno] } leaves blocks result) :
    ExtentsAppended it leaves (blkno :: blocks) result := by
  unfold ExtentsAppended at appended ⊢
  simp only [List.append_assoc, List.singleton_append] at appended
  exact appended

theorem extentIteratorChildren_appended (p : Ext2Editor) (junk : Nat → Memory)
    (size : 1024 ≤ p.blockSize ∧ p.blockSize ≤ 65536) (offsets : p.fd.file.size < 2^63)
    {appending : ExtentIterator → Memory → ExtentM ExtentIterator} {eh : Memory} {depth : Nat}
    (below : ehDepth eh = depth + 1)
    (child : ∀ (tree : ExtentTree depth) buf m it, ExtentsAt p depth tree buf → m.StartsWith buf →
      it.totalEntries = (it.parent.getD []).length →
      ExtentsAppended it (tree.groups depth) (tree.keys depth) (appending it m))
    (children : List (Nat × ExtentTree depth)) (i : Nat)
    (stored : ∀ j c, children[j]? = some c → ext4ExtentIdxLeafBlock eh (i + j) = c.1 ∧
      p.fd.start + c.1 * p.blockSize + p.blockSize ≤ p.fd.file.size ∧
      ExtentsAt p depth c.2 (p.fd.file.slice (p.fd.start + c.1 * p.blockSize) p.blockSize))
    (it : ExtentIterator) (counted : it.totalEntries = (it.parent.getD []).length) :
    ExtentsAppended it (LevelTree.groups (depth + 1) children) (LevelTree.keys (depth + 1) children)
      (extentIteratorChildren p junk appending eh i children.length it) := by
  induction children generalizing i it with
  | nil => exact ⟨it.dataBlocks, by simp [extentIteratorChildren, LevelTree.keys, counted.symm]; rfl⟩
  | cons c rest ih =>
    obtain ⟨blkno, inside, node⟩ := stored 0 c rfl
    rw [Nat.add_zero] at blkno
    have read := ext2ReadBlocks_inside p c.1 size offsets inside
    have starts := bufferMemory_startsWith (junk it.reads.length)
      (p.fd.file.slice (p.fd.start + c.1 * p.blockSize) p.blockSize)
    obtain ⟨magic, level⟩ := node.header starts
    have visited := (child c.2 _ _ { it with
      dataBlocks := it.dataBlocks.map fun b => (b.set c.1).2
      reads := it.reads ++ [c.1] } node starts counted).visit
    have joined : ExtentsAppended it (c.2.groups depth ++ LevelTree.groups (depth + 1) rest)
        (c.1 :: c.2.keys depth ++ LevelTree.keys (depth + 1) rest) _ :=
      visited.bind fun mid more => ih (i + 1) (fun j d found => by
        have here := stored (j + 1) d found
        rwa [show i + (j + 1) = i + 1 + j by omega] at here) mid more
    simp only [List.length_cons, extentIteratorChildren, blkno, read, magic, level, below, Nat.add_sub_cancel, ne_eq,
      not_true_eq_false, ↓reduceIte]
    exact joined

theorem extentIteratorAppending_appended (p : Ext2Editor) (junk : Nat → Memory) (size : 1024 ≤ p.blockSize ∧ p.blockSize ≤ 65536)
    (offsets : p.fd.file.size < 2^63) (depth : Nat) (tree : ExtentTree depth) (buf : List Byte)
    (stored : ExtentsAt p depth tree buf) (eh : Memory) (starts : eh.StartsWith buf) (fuel : Nat) (enough : depth < fuel)
    (it : ExtentIterator) (counted : it.totalEntries = (it.parent.getD []).length) :
    ExtentsAppended it (tree.groups depth) (tree.keys depth) (extentIteratorAppending p junk fuel it eh) := by
  induction depth generalizing buf eh fuel it with
  | zero =>
    obtain ⟨fuel, rfl⟩ := Nat.exists_eq_add_of_lt enough
    have level := (stored.header starts).2
    rw [extentIteratorAppending, if_neg (by omega)]
    exact extentIteratorLeaf_appended it counted stored starts
  | succ depth ih =>
    obtain ⟨more, rfl⟩ := Nat.exists_eq_add_of_lt enough
    have level := (stored.header starts).2
    obtain ⟨header, children⟩ := stored
    have room := header.room
    have count : ehEntries eh = List.length tree := by
      rw [ehEntries, starts.field (by omega), header.entries]
    rw [extentIteratorAppending, if_pos (by omega), count]
    apply extentIteratorChildren_appended p junk size offsets level
    · intro subtree buf m mid node begins equal
      exact ih subtree buf node m begins (depth + 1 + more) (by omega) mid equal
    · intro j c found
      have bound := (List.getElem?_eq_some_iff.mp found).1
      rw [Nat.zero_add, starts.leafBlock (by omega)]
      exact children j c found
    · exact counted

/-- The iterator ends on every extent tree, and makes a well formed one into the list of its extents, with one visit
of each child block. -/
def ExtentIteratorFlattens (p : Ext2Editor) (junk : Nat → Memory) (ino : Nat) (dataBlocks : Option Bitmask) : Prop :=
  ∀ fuel, 6 ≤ fuel → extentIteratorInit p junk fuel ino dataBlocks ≠ .error .unfinished ∧
    ∀ inode depth tree, ext2ReadInode p ino = some inode → ExtentTreeOf p inode depth tree →
      ∃ it, extentIteratorInit p junk fuel ino dataBlocks = .ok it ∧ it.parent.getD [] = tree.leaves depth ∧
        it.totalEntries = (tree.leaves depth).length ∧ it.reads = tree.keys depth ∧
        ∀ blkno ∈ tree.keys depth, it.reads.count blkno = 1

theorem extentIteratorInit_finishes (p : Ext2Editor) (junk : Nat → Memory) (fuel ino : Nat) (dataBlocks : Option Bitmask)
    (enough : 6 ≤ fuel) : extentIteratorInit p junk fuel ino dataBlocks ≠ .error .unfinished := by
  unfold extentIteratorInit
  rcases ext2ReadInode p ino with _ | inode
  · exact nofun
  dsimp only
  split
  · exact nofun
  split
  · exact nofun
  split
  · exact nofun
  · exact extentIteratorAppending_finishes _ _ _ _ _ (by omega)

theorem extentIteratorInit_appended {p : Ext2Editor} {ino depth : Nat} {inode : List Byte} {tree : ExtentTree depth}
    (read : ext2ReadInode p ino = some inode) (wellFormed : ExtentTreeOf p inode depth tree) (junk : Nat → Memory)
    (fuel : Nat) (enough : 6 ≤ fuel) (dataBlocks : Option Bitmask) :
    ExtentsAppended ⟨inode, none, 0, dataBlocks, []⟩ (tree.groups depth) (tree.keys depth)
      (extentIteratorInit p junk fuel ino dataBlocks) := by
  have starts : (inodeExtentHeader (junk 0) inode).StartsWith (field inode 40 60) := by
    intro i inside
    rw [field, List.length_take] at inside
    rw [inodeExtentHeader, bufferMemory_startsWith _ _ i (by omega), field, List.getD_eq_getElem?_getD,
      List.getD_eq_getElem?_getD, List.getElem?_take_of_lt (by omega)]
  obtain ⟨magic, level⟩ := wellFormed.root.header starts
  have shallow := wellFormed.shallow
  simp only [extentIteratorInit, read, magic, level, ne_eq, not_true_eq_false, ↓reduceIte]
  rw [if_neg wellFormed.flag, if_neg (by omega)]
  exact extentIteratorAppending_appended p junk wellFormed.blockSize wellFormed.offsets depth tree _ wellFormed.root _ starts
    fuel (by omega) _ rfl

/-- An inode 2 with two index entries, for two leaves without extents. -/
def emptyLeavesImage : File :=
  let f := File.empty.writeAt (5248 + 32) [0, 0, 8, 0]
  let f := f.writeAt (5248 + 40) ([0x0a, 0xf3, 2, 0, 4, 0, 1] ++ List.replicate 9 0 ++ [6] ++ List.replicate 11 0 ++ [7])
  let f := f.writeAt 6144 [0x0a, 0xf3, 0, 0, 84]
  let f := f.writeAt 7168 [0x0a, 0xf3, 0, 0, 84]
  f.writeAt 8191 [0]

def emptyLeavesEditor : Ext2Editor := ⟨⟨emptyLeavesImage, 0, 0⟩, 1024, 128, 1, 16, [5]⟩

def emptyLeaves : ExtentTree 1 := [(6, []), (7, [])]

theorem emptyLeaves_stored : ExtentsAt emptyLeavesEditor 1 emptyLeaves (field (emptyLeavesImage.slice 5248 128) 40 60) := by
  refine ⟨⟨by decide +kernel, by decide +kernel, by decide +kernel, by decide +kernel⟩, ?_⟩
  intro i child found
  match i with
  | 0 =>
    obtain rfl := Option.some.inj found
    exact ⟨by decide +kernel, by decide +kernel,
      ⟨by decide +kernel, by decide +kernel, by decide +kernel, by decide +kernel⟩, fun _ _ none => nomatch none⟩
  | 1 =>
    obtain rfl := Option.some.inj found
    exact ⟨by decide +kernel, by decide +kernel,
      ⟨by decide +kernel, by decide +kernel, by decide +kernel, by decide +kernel⟩, fun _ _ none => nomatch none⟩
  | i + 2 => cases found

end ImgEditor
