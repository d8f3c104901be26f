import ImgEditor.Fs.Ext2References

namespace ImgEditor

open Storage

def EXT2_RESIZE_INO : Nat := 7

def inodeCtime (inode : List Byte) : Nat := leField inode 12 4

/-- One pass of the loops of `ext2_whohas_blkno` and `ext2_add_inode_chunks`: the marks of an inode, or none where the
pass ends before they are looked at. -/
def ext2InodeMarks (junk : Nat → Memory) (p : Ext2Editor) (totalBlocks ino : Nat) : Option Bitmask :=
  let dataBlocks := (allocBitmask totalBlocks).memset 0#8
  match ext2ReadInode p ino with
  | none => none
  | some inode =>
    if ino = EXT2_RESIZE_INO then
      if inodeDoubleIndirBlock inode ≠ 0 then some (dataBlocks.set (inodeDoubleIndirBlock inode)).2 else some dataBlocks
    else if inodeSize64 inode = 0 then none
    else if inodeCtime inode = 0 then none
    else if ¬ InodeSearched inode then none
    else if inodeFlags inode &&& EXT4_EXTENTS_FL = 0 then
      (ext2InodeBlocksRead p inode ⟨[], some dataBlocks⟩).bind Ext2InodeBlocks.indirBlocks
    else
      match extentIteratorInit p junk 6 ino (some dataBlocks) with
      | .error _ => none
      | .ok it => it.dataBlocks

def RawCovers (ee : Ext4Extent) (blk : Nat) : Prop :=
  ext4ExtentStartBlock ee ≤ blk ∧ blk < ext4ExtentStartBlock ee + ee.eeLen

/-- The pass comes to look at the marks. -/
def Ext2Compared (junk : Nat → Memory) (p : Ext2Editor) (ino : Nat) : Prop :=
  ∃ inode, ext2ReadInode p ino = some inode ∧ (ino = EXT2_RESIZE_INO ∨
    inodeSize64 inode ≠ 0 ∧ inodeCtime inode ≠ 0 ∧ InodeSearched inode ∧
      if inodeFlags inode &&& EXT4_EXTENTS_FL = 0 then ext2BlocksListed p inode ≠ none
      else ∃ it, extentIteratorInit p junk 6 ino none = .ok it)

/-- What is marked: of the resize inode its double indirect block only, of a map its front, of a tree all that the
iterator comes to. -/
def Ext2Marked (junk : Nat → Memory) (p : Ext2Editor) (ino blk : Nat) : Prop :=
  ∃ inode, ext2ReadInode p ino = some inode ∧
    if ino = EXT2_RESIZE_INO then inodeDoubleIndirBlock inode ≠ 0 ∧ blk = inodeDoubleIndirBlock inode
    else if inodeFlags inode &&& EXT4_EXTENTS_FL = 0 then blk ∈ ext2BlocksVisited p inode
    else ∃ it, extentIteratorInit p junk 6 ino none = .ok it ∧ (blk ∈ it.reads ∨ ∃ ee ∈ it.parent.getD [], RawCovers ee blk)

section Extents

variable {total : Nat}

def MarksRead (total : Nat) (it : ExtentIterator) (b : Bitmask) : Prop :=
  b.Marks total fun k => k ∈ it.reads ∨ ∃ ee ∈ it.parent.getD [], RawCovers ee k

abbrev ExtentIterator.marking (it : ExtentIterator) (b : Bitmask) : ExtentIterator := { it with dataBlocks := some b }

/-- A run with a mask does what the run without one does, and marks what that comes to. -/
def MarkedRun (total : Nat) (plain marked : ExtentM ExtentIterator) : Prop :=
  match plain with
  | .error fail => marked = .error fail
  | .ok out => out.dataBlocks = none ∧ ∃ b, marked = .ok (out.marking b) ∧ MarksRead total out b

theorem MarkedRun.bind {plain marked : ExtentM ExtentIterator} {next : ExtentIterator → ExtentM ExtentIterator}
    (first : MarkedRun total plain marked)
    (rest : ∀ (it : ExtentIterator) (b : Bitmask), it.dataBlocks = none → MarksRead total it b →
      MarkedRun total (next it) (next (it.marking b))) : MarkedRun total (plain >>= next) (marked >>= next) := by
  cases plain with
  | error fail =>
    rw [show marked = .error fail from first]
    rfl
  | ok out =>
    rcases first with ⟨unmarked, b, same, marks⟩
    rw [same]
    exact rest out b unmarked marks

theorem setExtents_marks {b : Bitmask} {S : Nat → Prop} (marks : b.Marks total S) (entries : List Ext4Extent) :
    (entries.foldl (fun b ee => (b.setBits (ext4ExtentStartBlock ee) ee.eeLen).2) b).Marks total fun k =>
      S k ∨ ∃ ee ∈ entries, RawCovers ee k := by
  induction entries generalizing b S with
  | nil => exact marks.congr fun k _ => ⟨.inl, fun either => either.resolve_right fun ⟨_, member, _⟩ => nomatch member⟩
  | cons ee rest ih =>
    rw [List.foldl_cons]
    refine (ih (marks.setBits (ext4ExtentStartBlock ee) ee.eeLen)).congr fun k _ => ?_
    rw [List.exists_mem_cons_iff, or_assoc]
    rfl

theorem extentIteratorLeaf_marks (it : ExtentIterator) (b : Bitmask) (unmarked : it.dataBlocks = none)
    (marks : MarksRead total it b) (eh : Memory) :
    MarkedRun total (extentIteratorLeaf it eh) (extentIteratorLeaf (it.marking b) eh) := by
  unfold extentIteratorLeaf
  dsimp only [ExtentIterator.marking]
  by_cases shrunk : it.totalEntries + ehEntries eh = 0 ∧ it.parent.isSome = true
  · rw [if_pos shrunk, if_pos shrunk]
    rfl
  · rw [if_neg shrunk, if_neg shrunk]
    refine ⟨by rw [unmarked]; rfl, _, rfl, ?_⟩
    refine (setExtents_marks marks ((List.range (ehEntries eh)).map (ext4Extent eh))).congr fun k _ => ?_
    dsimp only
    rw [Option.getD_some, or_assoc]
    refine or_congr_right ?_
    constructor
    · rintro (⟨ee, member, covers⟩ | ⟨ee, member, covers⟩)
      · exact ⟨ee, List.mem_append_left _ member, covers⟩
      · exact ⟨ee, List.mem_append_right _ member, covers⟩
    · rintro ⟨ee, member, covers⟩
      rcases List.mem_append.mp member with old | new
      · exact .inl ⟨ee, old, covers⟩
      · exact .inr ⟨ee, new, covers⟩

theorem extentIteratorChildren_marks (p : Ext2Editor) (junk : Nat → Memory)
    {appending : ExtentIterator → Memory → ExtentM ExtentIterator}
    (child : ∀ (it : ExtentIterator) (b : Bitmask) (m : Memory), it.dataBlocks = none → MarksRead total it b →
      MarkedRun total (appending it m) (appending (it.marking b) m))
    (eh : Memory) (i count : Nat) (it : ExtentIterator) (b : Bitmask) (unmarked : it.dataBlocks = none)
    (marks : MarksRead total it b) :
    MarkedRun total (extentIteratorChildren p junk appending eh i count it)
      (extentIteratorChildren p junk appending eh i count (it.marking b)) := by
  induction count generalizing i it b with
  | zero => exact ⟨unmarked, b, rfl, marks⟩
  | succ count ih =>
    rw [extentIteratorChildren, extentIteratorChildren]
    dsimp only [ExtentIterator.marking]
    cases ext2ReadBlocks p (ext4ExtentIdxLeafBlock eh i) 1 p.blockSize with
    | none => rfl
    | some blk =>
      dsimp only
      split
      · rfl
      split
      · rfl
      refine MarkedRun.bind ?_ fun mid mask => ih (i + 1) mid mask
      have next : MarksRead total { it with dataBlocks := none, reads := it.reads ++ [ext4ExtentIdxLeafBlock eh i] }
          (b.set (ext4ExtentIdxLeafBlock eh i)).2 := by
        refine (marks.set (ext4ExtentIdxLeafBlock eh i)).congr fun k _ => ?_
        dsimp only
        rw [List.mem_append, List.mem_singleton, or_right_comm]
      rw [unmarked]
      exact child _ _ _ rfl next

theorem extentIteratorAppending_marks (p : Ext2Editor) (junk : Nat → Memory) (fuel : Nat) (it : ExtentIterator) (b : Bitmask)
    (eh : Memory) (unmarked : it.dataBlocks = none) (marks : MarksRead total it b) :
    MarkedRun total (extentIteratorAppending p junk fuel it eh) (extentIteratorAppending p junk fuel (it.marking b) eh) := by
  induction fuel generalizing it b eh with
  | zero => rfl
  | succ fuel ih =>
    rw [extentIteratorAppending, extentIteratorAppending]
    split
    · exact extentIteratorChildren_marks p junk (fun it b m => ih it b m) eh 0 (ehEntries eh) it b unmarked marks
    · exact extentIteratorLeaf_marks it b unmarked marks eh

theorem extentIteratorInit_marks (p : Ext2Editor) (junk : Nat → Memory) (fuel ino : Nat) :
    MarkedRun total (extentIteratorInit p junk fuel ino none)
      (extentIteratorInit p junk fuel ino (some ((allocBitmask total).memset 0#8))) := by
  unfold extentIteratorInit
  cases ext2ReadInode p ino with
  | none => rfl
  | some inode =>
    dsimp only
    split
    · rfl
    split
    · rfl
    split
    · rfl
    · refine extentIteratorAppending_marks p junk fuel ⟨inode, none, 0, none, []⟩ _ _ rfl ?_
      refine (Bitmask.marks_cleared total).congr fun k _ => ?_
      refine iff_of_false id ?_
      rintro (read | ⟨ee, member, _⟩)
      · exact List.not_mem_nil read
      · exact List.not_mem_nil member

end Extents

section Inode

variable {junk : Nat → Memory} {p : Ext2Editor} {total ino : Nat} {inode : List Byte}

theorem setBlocks_marks {b : Bitmask} {S : Nat → Prop} (marks : b.Marks total S) (blocks : List Nat) :
    (blocks.foldl (fun mask n => (mask.set n).2) b).Marks total fun k => S k ∨ k ∈ blocks := by
  induction blocks generalizing b S with
  | nil => exact marks.congr fun k _ => ⟨.inl, fun either => either.resolve_right List.not_mem_nil⟩
  | cons n rest ih =>
    rw [List.foldl_cons]
    refine (ih (marks.set n)).congr fun k _ => ?_
    rw [List.mem_cons, or_assoc]

def MarksAre (junk : Nat → Memory) (p : Ext2Editor) (total ino : Nat) : Option Bitmask → Prop
  | none => ¬ Ext2Compared junk p ino
  | some b => Ext2Compared junk p ino ∧ b.Marks total (Ext2Marked junk p ino)

theorem ext2Compared_iff (read : ext2ReadInode p ino = some inode) (other : ino ≠ EXT2_RESIZE_INO) :
    Ext2Compared junk p ino ↔ inodeSize64 inode ≠ 0 ∧ inodeCtime inode ≠ 0 ∧ InodeSearched inode ∧
      if inodeFlags inode &&& EXT4_EXTENTS_FL = 0 then ext2BlocksListed p inode ≠ none
      else ∃ it, extentIteratorInit p junk 6 ino none = .ok it := by
  constructor
  · rintro ⟨same, again, resize | compared⟩
    · exact absurd resize other
    · rw [← Option.some.inj (read.symm.trans again)] at compared
      exact compared
  · exact fun compared => ⟨inode, read, .inr compared⟩

theorem ext2Marked_iff (read : ext2ReadInode p ino = some inode) (blk : Nat) : Ext2Marked junk p ino blk ↔
    if ino = EXT2_RESIZE_INO then inodeDoubleIndirBlock inode ≠ 0 ∧ blk = inodeDoubleIndirBlock inode
    else if inodeFlags inode &&& EXT4_EXTENTS_FL = 0 then blk ∈ ext2BlocksVisited p inode
    else ∃ it, extentIteratorInit p junk 6 ino none = .ok it ∧
      (blk ∈ it.reads ∨ ∃ ee ∈ it.parent.getD [], RawCovers ee blk) := by
  constructor
  · rintro ⟨same, again, marked⟩
    rw [← Option.some.inj (read.symm.trans again)] at marked
    exact marked
  · exact fun marked => ⟨inode, read, marked⟩

theorem ext2InodeMarks_resize (read : ext2ReadInode p ino = some inode) (resize : ino = EXT2_RESIZE_INO) :
    MarksAre junk p total ino (ext2InodeMarks junk p total ino) := by
  have compared : Ext2Compared junk p ino := ⟨inode, read, .inl resize⟩
  have cleared := Bitmask.marks_cleared total
  unfold ext2InodeMarks
  rw [read]
  dsimp only
  rw [if_pos resize]
  split
  · rename_i present
    refine ⟨compared, (cleared.set (inodeDoubleIndirBlock inode)).congr fun k _ => ?_⟩
    rw [ext2Marked_iff read, if_pos resize, false_or]
    exact (and_iff_right present).symm
  · rename_i absent
    refine ⟨compared, cleared.congr fun k _ => ?_⟩
    rw [ext2Marked_iff read, if_pos resize]
    exact iff_of_false id fun marked => absent marked.1

theorem ext2InodeMarks_map (read : ext2ReadInode p ino = some inode) (other : ino ≠ EXT2_RESIZE_INO)
    (filled : inodeSize64 inode ≠ 0) (created : inodeCtime inode ≠ 0) (searched : InodeSearched inode)
    (map : inodeFlags inode &&& EXT4_EXTENTS_FL = 0) : MarksAre junk p total ino
      ((ext2InodeBlocksRead p inode ⟨[], some ((allocBitmask total).memset 0#8)⟩).bind Ext2InodeBlocks.indirBlocks) := by
  rw [ext2InodeBlocksRead_eq]
  cases listed : ext2BlocksListed p inode with
  | none =>
    intro compared
    have some := ((ext2Compared_iff read other).mp compared).2.2.2
    rw [if_pos map] at some
    exact some listed
  | some list =>
    refine ⟨(ext2Compared_iff read other).mpr ⟨filled, created, searched, ?_⟩, ?_⟩
    · rw [if_pos map, listed]
      exact Option.some_ne_none list
    · refine (setBlocks_marks (Bitmask.marks_cleared total) (ext2BlocksVisited p inode)).congr fun k _ => ?_
      rw [ext2Marked_iff read, if_neg other, if_pos map, false_or]

theorem ext2InodeMarks_extents (read : ext2ReadInode p ino = some inode) (other : ino ≠ EXT2_RESIZE_INO)
    (filled : inodeSize64 inode ≠ 0) (created : inodeCtime inode ≠ 0) (searched : InodeSearched inode)
    (extents : inodeFlags inode &&& EXT4_EXTENTS_FL ≠ 0) : MarksAre junk p total ino
      (match extentIteratorInit p junk 6 ino (some ((allocBitmask total).memset 0#8)) with
        | .error _ => none
        | .ok it => it.dataBlocks) := by
  have run : MarkedRun total _ _ := extentIteratorInit_marks p junk 6 ino
  cases plain : extentIteratorInit p junk 6 ino none with
  | error fail =>
    rw [plain] at run
    rw [show extentIteratorInit p junk 6 ino (some ((allocBitmask total).memset 0#8)) = .error fail from run]
    intro compared
    have done := ((ext2Compared_iff read other).mp compared).2.2.2
    rw [if_neg extents] at done
    rcases done with ⟨it, ok⟩
    cases plain.symm.trans ok
  | ok out =>
    rw [plain] at run
    rcases run with ⟨_, b, same, marks⟩
    rw [same]
    refine ⟨(ext2Compared_iff read other).mpr ⟨filled, created, searched, ?_⟩, marks.congr fun k _ => ?_⟩
    · rw [if_neg extents]
      exact ⟨out, plain⟩
    · rw [ext2Marked_iff read, if_neg other, if_neg extents]
      constructor
      · exact fun covered => ⟨out, plain, covered⟩
      · rintro ⟨it, ok, covered⟩
        rw [Except.ok.inj (plain.symm.trans ok)]
        exact covered

theorem ext2InodeMarks_spec (junk : Nat → Memory) (p : Ext2Editor) (total ino : Nat) :
    MarksAre junk p total ino (ext2InodeMarks junk p total ino) := by
  cases read : ext2ReadInode p ino with
  | none =>
    unfold ext2InodeMarks
    rw [read]
    rintro ⟨inode, some, _⟩
    cases read.symm.trans some
  | some inode =>
    by_cases resize : ino = EXT2_RESIZE_INO
    · exact ext2InodeMarks_resize read resize
    have compared : Ext2Compared junk p ino ↔ _ := ext2Compared_iff read resize
    unfold ext2InodeMarks
    rw [read]
    dsimp only
    rw [if_neg resize]
    split
    · rename_i empty
      exact fun all => (compared.mp all).1 empty
    rename_i filled
    split
    · rename_i unset
      exact fun all => (compared.mp all).2.1 unset
    rename_i created
    split
    · rename_i skipped
      exact fun all => skipped (compared.mp all).2.2.1
    rename_i searched
    have kind := Decidable.not_not.mp searched
    split
    · rename_i map
      exact ext2InodeMarks_map read resize filled created kind map
    · rename_i extents
      exact ext2InodeMarks_extents read resize filled created kind extents

/-! ## Marks and references -/

def PlainExtents (p : Ext2Editor) (inode : List Byte) : Prop :=
  ∃ depth tree, ExtentTreeOf p inode depth tree ∧ ∀ ee ∈ tree.leaves depth, ee.eeLen ≤ 32768

/-- The front of a map names what it marks. -/
theorem mapRefers_of_visited {blk : Nat} (marked : blk ∈ ext2BlocksVisited p inode) : MapRefers p inode blk := by
  unfold ext2BlocksVisited at marked
  unfold MapRefers inodeMapRoots
  split at marked
  · have present : blk ≠ 0 := by simpa using List.mem_takeWhile_imp marked
    have direct := (List.takeWhile_prefix _).subset marked
    exact ⟨(0, blk), List.mem_append_left _ (List.mem_map_of_mem direct), present, rfl⟩
  · rename_i solid
    rcases List.mem_append.mp marked with direct | below
    · have present : blk ≠ 0 := by
        intro zero
        rw [zero] at direct
        exact solid direct
      exact ⟨(0, blk), List.mem_append_left _ (List.mem_map_of_mem direct), present, rfl⟩
    · rcases List.mem_flatMap.mp below with ⟨root, member, visited⟩
      unfold visitedPresent at visited
      split at visited
      · exact absurd visited List.not_mem_nil
      · rename_i present
        exact ⟨root, List.mem_append_right _ member, present, BlockIndex.holds_of_visited visited⟩

/-- The iterator ends well on a valid tree with its nodes and its extents only. -/
theorem extentIterator_tree {depth : Nat} {tree : ExtentTree depth} {it : ExtentIterator}
    (read : ext2ReadInode p ino = some inode) (wellFormed : ExtentTreeOf p inode depth tree)
    (done : extentIteratorInit p junk 6 ino none = .ok it) :
    it.reads = tree.keys depth ∧ it.parent.getD [] = tree.leaves depth := by
  have appended := extentIteratorInit_appended read wellFormed junk 6 (Nat.le_refl 6) none
  rw [ExtentsAppended, done] at appended
  have filled : ¬ [[], []] <+: tree.groups depth := by
    intro empty
    rw [appendLeaves_empty empty] at appended
    cases appended
  rcases appendLeaves_flatten filled with ⟨parent, list, flat⟩
  rw [list] at appended
  rcases appended with ⟨dataBlocks, same⟩
  rw [Except.ok.inj same]
  exact ⟨rfl, flat⟩

/-- Every reading of the tree is valid, and its first two leaves are not both empty. -/
def ValidExtents (p : Ext2Editor) (inode : List Byte) : Prop :=
  ∀ depth tree, ExtentsAt p depth tree (field inode 40 60) → ExtentTreeOf p inode depth tree ∧ ¬ [[], []] <+: tree.groups depth

/-- On a valid tree the iterator marks all that the tree refers to. -/
theorem marked_of_extentsRefer {blk : Nat} (read : ext2ReadInode p ino = some inode) (valid : ValidExtents p inode)
    (refers : ExtentsRefer p inode blk) : ∃ it, extentIteratorInit p junk 6 ino none = .ok it ∧
      (blk ∈ it.reads ∨ ∃ ee ∈ it.parent.getD [], RawCovers ee blk) := by
  rcases refers with ⟨depth, tree, stored, covered⟩
  rcases valid depth tree stored with ⟨wellFormed, filled⟩
  have appended := extentIteratorInit_appended read wellFormed junk 6 (Nat.le_refl 6) none
  rcases appendLeaves_flatten filled with ⟨parent, list, flat⟩
  rw [ExtentsAppended, list] at appended
  rcases appended with ⟨dataBlocks, done⟩
  refine ⟨_, done, covered.imp_right ?_⟩
  rintro ⟨ee, member, lower, upper⟩
  refine ⟨ee, ?_, lower, ?_⟩
  · dsimp only
    rw [flat]
    exact member
  · have shorter := extentBlocks_le ee
    omega

theorem extentsRefer_of_marked {blk : Nat} {it : ExtentIterator} (read : ext2ReadInode p ino = some inode)
    (plain : PlainExtents p inode) (done : extentIteratorInit p junk 6 ino none = .ok it)
    (marked : blk ∈ it.reads ∨ ∃ ee ∈ it.parent.getD [], RawCovers ee blk) : ExtentsRefer p inode blk := by
  rcases plain with ⟨depth, tree, wellFormed, written⟩
  rcases extentIterator_tree read wellFormed done with ⟨reads, parent⟩
  rw [reads, parent] at marked
  refine ⟨depth, tree, wellFormed.root, marked.imp_right ?_⟩
  rintro ⟨ee, member, covers⟩
  refine ⟨ee, member, covers.1, ?_⟩
  rw [extentBlocks_written (written ee member)]
  exact covers.2

end Inode

end ImgEditor
