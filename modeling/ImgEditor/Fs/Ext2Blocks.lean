import ImgEditor.Fs.Ext2
import ImgEditor.Storage.IndexFront

namespace ImgEditor

open Storage

/-! Fields of `struct ext2_inode`. -/

def inodeMode (inode : List Byte) : Nat := leField inode 0 2
def inodeSizeLow (inode : List Byte) : Nat := leField inode 4 4
def inodeFlags (inode : List Byte) : Nat := leField inode 32 4
def inodeSizeHigh (inode : List Byte) : Nat := leField inode 108 4

def inodeSize64 (inode : List Byte) : Nat := inodeSizeHigh inode * 2^32 + inodeSizeLow inode

def INODE_MODE_S_MASK : Nat := 0xf000
def INODE_MODE_S_IFDIR : Nat := 0x4000
def INODE_MODE_S_IFREG : Nat := 0x8000
def INODE_MODE_S_IFLINK : Nat := 0xa000

def INDIRECT_BLOCKS : Nat := 12

def inodeDirBlock (inode : List Byte) (i : Nat) : Nat := leField inode (40 + 4 * i) 4
def inodeIndirBlock (inode : List Byte) : Nat := leField inode 88 4
def inodeDoubleIndirBlock (inode : List Byte) : Nat := leField inode 92 4
def inodeTripleIndirBlock (inode : List Byte) : Nat := leField inode 96 4

def inodeDirBlocks (inode : List Byte) : List Nat := (List.range INDIRECT_BLOCKS).map (inodeDirBlock inode)

/-- `struct ext2_inode_blocks` and the bitmask that the readers mark. -/
structure Ext2InodeBlocks where
  blocks : List Nat
  indirBlocks : Option Bitmask

def Ext2InodeBlocks.mark (b : Ext2InodeBlocks) (blkno : Nat) : Ext2InodeBlocks :=
  { b with indirBlocks := b.indirBlocks.map fun mask => (mask.set blkno).2 }

def ext2InodeBlocksPush (b : Ext2InodeBlocks) (blkno : Nat) : Ext2InodeBlocks :=
  { b.mark blkno with blocks := b.blocks ++ [blkno] }

/-- The loop over the entries of an indirect block; it ends at the first zero. -/
def ext2InodeEntries (todo : Ext2InodeBlocks → Nat → Option Ext2InodeBlocks) :
    List Nat → Ext2InodeBlocks → Option Ext2InodeBlocks
  | [], b => some b
  | n :: rest, b => if n = 0 then some b else (todo (b.mark n) n).bind (ext2InodeEntries todo rest)

def ext2Words (p : Ext2Editor) (blkbuf : List Byte) : List Nat :=
  (List.range (p.blockSize / 4)).map fun i => leField blkbuf (4 * i) 4

/-- The functions of `ext2_inode_read_block_define`. -/
def ext2InodeReadBlock (p : Ext2Editor) (todo : Ext2InodeBlocks → Nat → Option Ext2InodeBlocks) (b : Ext2InodeBlocks)
    (blkno : Nat) : Option Ext2InodeBlocks :=
  (ext2ReadBlocks p blkno 1 p.blockSize).bind fun blkbuf => ext2InodeEntries todo (ext2Words p blkbuf) (b.mark blkno)

def ext2InodeIndirBlocksPush (p : Ext2Editor) : Ext2InodeBlocks → Nat → Option Ext2InodeBlocks :=
  ext2InodeReadBlock p fun b n => some (ext2InodeBlocksPush b n)

def ext2InodeDoubleIndirBlocksPush (p : Ext2Editor) : Ext2InodeBlocks → Nat → Option Ext2InodeBlocks :=
  ext2InodeReadBlock p (ext2InodeIndirBlocksPush p)

def ext2InodeTripleIndirBlocksPush (p : Ext2Editor) : Ext2InodeBlocks → Nat → Option Ext2InodeBlocks :=
  ext2InodeReadBlock p (ext2InodeDoubleIndirBlocksPush p)

/-- The loop over the direct blocks; a zero returns from the function. -/
def ext2InodeDirect (behind : Ext2InodeBlocks → Option Ext2InodeBlocks) : List Nat → Ext2InodeBlocks → Option Ext2InodeBlocks
  | [], b => behind b
  | blkno :: rest, b => if blkno = 0 then some b else ext2InodeDirect behind rest (ext2InodeBlocksPush b blkno)

def pushPresent (push : Ext2InodeBlocks → Nat → Option Ext2InodeBlocks) (blkno : Nat) (b : Ext2InodeBlocks) :
    Option Ext2InodeBlocks :=
  if blkno ≠ 0 then push b blkno else some b

/-- `_ext2_inode_blocks_read`; `none` is a negative return value. -/
def ext2InodeBlocksRead (p : Ext2Editor) (inode : List Byte) (b : Ext2InodeBlocks) : Option Ext2InodeBlocks :=
  ext2InodeDirect (fun b => do
    let b ← pushPresent (ext2InodeIndirBlocksPush p) (inodeIndirBlock inode) b
    let b ← pushPresent (ext2InodeDoubleIndirBlocksPush p) (inodeDoubleIndirBlock inode) b
    pushPresent (ext2InodeTripleIndirBlocksPush p) (inodeTripleIndirBlock inode) b) (inodeDirBlocks inode) b

/-! ## The block map -/

/-- Indirect blocks are nodes of 32 bit block numbers. -/
def ext2Index (p : Ext2Editor) : BlockIndex where
  fanout := p.blockSize / 4
  entries := fun n => (ext2ReadBlocks p n 1 p.blockSize).map (ext2Words p)
  complete := by
    intro n list stored
    rcases Option.map_eq_some_iff.mp stored with ⟨blkbuf, -, rfl⟩
    rw [ext2Words, List.length_map, List.length_range]

def inodeIndirRoots (inode : List Byte) : List (Nat × Nat) :=
  [(1, inodeIndirBlock inode), (2, inodeDoubleIndirBlock inode), (3, inodeTripleIndirBlock inode)]

/-- The block that the map of an inode has for a block of the file, 0 for a hole. -/
def ext2FileBlock (p : Ext2Editor) (inode : List Byte) (k : Nat) : Option Nat :=
  (ext2Index p).forestLookup ((inodeDirBlocks inode).map (fun n => (0, n)) ++ inodeIndirRoots inode) k

/-! ## What the readers list -/

namespace Ext2InodeBlocks

def add (b : Ext2InodeBlocks) (blocks marks : List Nat) : Ext2InodeBlocks :=
  ⟨b.blocks ++ blocks, b.indirBlocks.map (marks.foldl fun mask n => (mask.set n).2)⟩

theorem add_add (b : Ext2InodeBlocks) (blocks blocks' marks marks' : List Nat) :
    (b.add blocks marks).add blocks' marks' = b.add (blocks ++ blocks') (marks ++ marks') := by
  unfold add
  rw [List.append_assoc, Option.map_map]
  congr 2
  funext mask
  exact List.foldl_append.symm

theorem add_nil (b : Ext2InodeBlocks) : b.add [] [] = b := by
  unfold add
  rw [List.append_nil]
  cases b with
  | mk blocks mask => cases mask <;> rfl

theorem mark_eq (b : Ext2InodeBlocks) (n : Nat) : b.mark n = b.add [] [n] := by
  unfold add mark
  rw [List.append_nil]
  rfl

end Ext2InodeBlocks

theorem ext2InodeBlocksPush_eq (b : Ext2InodeBlocks) (n : Nat) : ext2InodeBlocksPush b n = b.add [n] [n] := rfl

section Readers

variable {p : Ext2Editor}

def ReadsFront (p : Ext2Editor) (level : Nat) (push : Ext2InodeBlocks → Nat → Option Ext2InodeBlocks) : Prop :=
  ∀ b n, push b n = ((ext2Index p).front level n).map fun list => b.add list ((ext2Index p).visited level n)

theorem ext2InodeBlocksPush_front : ReadsFront p 0 fun b n => some (ext2InodeBlocksPush b n) := by
  intro b n
  exact congrArg some (ext2InodeBlocksPush_eq b n)

theorem ext2InodeEntries_front {level : Nat} {todo : Ext2InodeBlocks → Nat → Option Ext2InodeBlocks}
    (reads : ReadsFront p level todo) (entries : List Nat) (b : Ext2InodeBlocks) :
    ext2InodeEntries todo entries b =
      (gather ((ext2Index p).front level) (entries.takeWhile (· ≠ 0))).map fun list =>
        b.add list ((entries.takeWhile (· ≠ 0)).flatMap fun e => e :: (ext2Index p).visited level e) := by
  induction entries generalizing b with
  | nil =>
    rw [ext2InodeEntries, List.takeWhile_nil, gather, Option.map_some, List.flatMap_nil, Ext2InodeBlocks.add_nil]
  | cons n rest ih =>
    rw [ext2InodeEntries]
    by_cases absent : n = 0
    · rw [if_pos absent, List.takeWhile_cons_of_neg (by simpa using absent), gather, Option.map_some, List.flatMap_nil,
        Ext2InodeBlocks.add_nil]
    · rw [if_neg absent, List.takeWhile_cons_of_pos (by simpa using absent), gather, reads, Ext2InodeBlocks.mark_eq]
      cases (ext2Index p).front level n with
      | none => rfl
      | some head =>
        rw [Option.map_some, Option.bind_some, Option.bind_some, ih, Option.map_map]
        refine congrArg (fun f => Option.map f _) ?_
        funext tail
        dsimp only [Function.comp]
        rw [Ext2InodeBlocks.add_add, Ext2InodeBlocks.add_add, List.nil_append, List.flatMap_cons]
        rfl

theorem ext2InodeReadBlock_front {level : Nat} {todo : Ext2InodeBlocks → Nat → Option Ext2InodeBlocks}
    (reads : ReadsFront p level todo) : ReadsFront p (level + 1) (ext2InodeReadBlock p todo) := by
  intro b n
  unfold ext2InodeReadBlock BlockIndex.front BlockIndex.visited ext2Index
  dsimp only
  cases ext2ReadBlocks p n 1 p.blockSize with
  | none => rfl
  | some blkbuf =>
    rw [Option.bind_some, Option.map_some, Option.bind_some, Option.getD_some, ext2InodeEntries_front reads,
      Ext2InodeBlocks.mark_eq]
    refine congrArg (fun f => Option.map f _) ?_
    funext list
    rw [Ext2InodeBlocks.add_add]
    rfl

theorem ext2InodeIndirBlocksPush_front : ReadsFront p 1 (ext2InodeIndirBlocksPush p) :=
  ext2InodeReadBlock_front ext2InodeBlocksPush_front

theorem ext2InodeDoubleIndirBlocksPush_front : ReadsFront p 2 (ext2InodeDoubleIndirBlocksPush p) :=
  ext2InodeReadBlock_front ext2InodeIndirBlocksPush_front

theorem ext2InodeTripleIndirBlocksPush_front : ReadsFront p 3 (ext2InodeTripleIndirBlocksPush p) :=
  ext2InodeReadBlock_front ext2InodeDoubleIndirBlocksPush_front

def visitedPresent (ix : BlockIndex) (root : Nat × Nat) : List Nat := if root.2 = 0 then [] else ix.visited root.1 root.2

theorem pushPresent_front {level : Nat} {push : Ext2InodeBlocks → Nat → Option Ext2InodeBlocks} (reads : ReadsFront p level push)
    (n : Nat) (b : Ext2InodeBlocks) :
    pushPresent push n b = ((ext2Index p).frontPresent (level, n)).map fun list =>
      b.add list (visitedPresent (ext2Index p) (level, n)) := by
  unfold pushPresent BlockIndex.frontPresent visitedPresent
  dsimp only
  by_cases absent : n = 0
  · rw [if_neg (not_not.mpr absent), if_pos absent, if_pos absent, Option.map_some, Ext2InodeBlocks.add_nil]
  · rw [if_pos absent, if_neg absent, if_neg absent, reads]

theorem ext2InodeDirect_eq (behind : Ext2InodeBlocks → Option Ext2InodeBlocks) (list : List Nat) (b : Ext2InodeBlocks) :
    ext2InodeDirect behind list b =
      if 0 ∈ list then some (b.add (list.takeWhile (· ≠ 0)) (list.takeWhile (· ≠ 0))) else behind (b.add list list) := by
  induction list generalizing b with
  | nil => rw [ext2InodeDirect, if_neg List.not_mem_nil, Ext2InodeBlocks.add_nil]
  | cons n rest ih =>
    rw [ext2InodeDirect]
    by_cases absent : n = 0
    · rw [if_pos absent, if_pos (by simp [absent]), List.takeWhile_cons_of_neg (by simpa using absent),
        Ext2InodeBlocks.add_nil]
    · rw [if_neg absent, List.takeWhile_cons_of_pos (by simpa using absent), ih, ext2InodeBlocksPush_eq,
        Ext2InodeBlocks.add_add, Ext2InodeBlocks.add_add]
      have same : 0 ∈ n :: rest ↔ 0 ∈ rest := by
        rw [List.mem_cons, or_iff_right (Ne.symm absent)]
      by_cases hole : 0 ∈ rest
      · rw [if_pos hole, if_pos (same.mpr hole)]
        rfl
      · rw [if_neg hole, if_neg (mt same.mp hole)]
        rfl

end Readers

def ext2BlocksListed (p : Ext2Editor) (inode : List Byte) : Option (List Nat) :=
  if 0 ∈ inodeDirBlocks inode then some ((inodeDirBlocks inode).takeWhile (· ≠ 0))
  else (gather (ext2Index p).frontPresent (inodeIndirRoots inode)).map fun rest => inodeDirBlocks inode ++ rest

def ext2BlocksVisited (p : Ext2Editor) (inode : List Byte) : List Nat :=
  if 0 ∈ inodeDirBlocks inode then (inodeDirBlocks inode).takeWhile (· ≠ 0)
  else inodeDirBlocks inode ++ (inodeIndirRoots inode).flatMap (visitedPresent (ext2Index p))

theorem ext2InodeBlocksRead_eq (p : Ext2Editor) (inode : List Byte) (b : Ext2InodeBlocks) :
    ext2InodeBlocksRead p inode b =
      (ext2BlocksListed p inode).map fun list => b.add list (ext2BlocksVisited p inode) := by
  rw [ext2InodeBlocksRead, ext2InodeDirect_eq, ext2BlocksListed, ext2BlocksVisited]
  by_cases hole : 0 ∈ inodeDirBlocks inode
  · rw [if_pos hole, if_pos hole, if_pos hole, Option.map_some]
  · rw [if_neg hole, if_neg hole, if_neg hole]
    simp only [pushPresent_front ext2InodeIndirBlocksPush_front, pushPresent_front ext2InodeDoubleIndirBlocksPush_front,
      pushPresent_front ext2InodeTripleIndirBlocksPush_front, inodeIndirRoots, gather, List.flatMap_cons, List.flatMap_nil]
    cases (ext2Index p).frontPresent (1, inodeIndirBlock inode) with
    | none => rfl
    | some first =>
      cases double : (ext2Index p).frontPresent (2, inodeDoubleIndirBlock inode) with
      | none => simp
      | some second =>
        cases triple : (ext2Index p).frontPresent (3, inodeTripleIndirBlock inode) with
        | none => simp
        | some third => simp [Ext2InodeBlocks.add_add]

/-! ## The list in front of the first hole -/

theorem gather_direct (p : Ext2Editor) {list : List Nat} (solid : 0 ∉ list) :
    gather (fun root => (ext2Index p).front root.1 root.2) (list.map fun n => (0, n)) = some list := by
  induction list with
  | nil => rfl
  | cons n rest ih =>
    rw [List.mem_cons, not_or] at solid
    rw [List.map_cons, gather, ih solid.2]
    rfl

/-- Without room for an entry in a block only the direct blocks count. -/
theorem ext2FileBlock_flat {p : Ext2Editor} (flat : (ext2Index p).fanout = 0) (inode : List Byte) :
    ext2FileBlock p inode = (ext2Index p).forestLookup ((inodeDirBlocks inode).map fun n => (0, n)) := by
  have tail (k : Nat) : (ext2Index p).forestLookup (inodeIndirRoots inode) k = some 0 := by
    simp [inodeIndirRoots, BlockIndex.forestLookup, flat]
  funext k
  unfold ext2FileBlock
  induction inodeDirBlocks inode generalizing k with
  | nil => exact tail k
  | cons n rest ih =>
    rw [List.map_cons, List.cons_append, BlockIndex.forestLookup, BlockIndex.forestLookup, ih]

theorem takeWhile_solid {list : List Nat} (solid : 0 ∉ list) (more : List (Nat × Nat)) :
    (list.map (fun n => (0, n)) ++ more).takeWhile (fun root => root.2 ≠ 0) =
      list.map (fun n => (0, n)) ++ more.takeWhile fun root => root.2 ≠ 0 := by
  apply List.takeWhile_append_of_pos
  intro root among
  rcases List.mem_map.mp among with ⟨n, member, rfl⟩
  have present : n ≠ 0 := fun zero => solid (zero ▸ member)
  simpa using present

theorem takeWhile_hole {list : List Nat} (hole : 0 ∈ list) (more : List (Nat × Nat)) :
    (list.map (fun n => (0, n)) ++ more).takeWhile (fun root => root.2 ≠ 0) =
      (list.takeWhile (· ≠ 0)).map fun n => (0, n) := by
  induction list with
  | nil => cases hole
  | cons n rest ih =>
    rw [List.map_cons, List.cons_append]
    by_cases absent : n = 0
    · rw [List.takeWhile_cons_of_neg (by simpa using absent), List.takeWhile_cons_of_neg (by simpa using absent)]
      rfl
    · rw [List.takeWhile_cons_of_pos (by simpa using absent), List.takeWhile_cons_of_pos (by simpa using absent),
        ih (by simpa [Ne.symm absent] using hole)]
      rfl

theorem not_mem_takeWhile (list : List Nat) : 0 ∉ list.takeWhile (· ≠ 0) := by
  intro member
  simpa using List.mem_takeWhile_imp member

/-- The blocks that are listed are those of the map as far as it has no hole. -/
theorem ext2BlocksListed_agrees {p : Ext2Editor} {inode : List Byte} {list : List Nat}
    (listed : ext2BlocksListed p inode = some list) (width : Nat) :
    BlockIndex.AgreesToHole (ext2FileBlock p inode) width list := by
  by_cases flat : (ext2Index p).fanout = 0
  · rw [ext2FileBlock_flat flat]
    have direct : BlockIndex.AgreesToHole ((ext2Index p).forestLookup ((inodeDirBlocks inode).map fun n => (0, n))) width
        ((inodeDirBlocks inode).takeWhile (· ≠ 0)) := by
      apply BlockIndex.gather_front_agrees
      · intro root among
        rcases List.mem_map.mp among with ⟨n, -, rfl⟩
        exact Nat.one_pos
      · rw [List.takeWhile_map]
        exact gather_direct p (not_mem_takeWhile _)
      · intro root among _ part front
        rcases List.mem_map.mp among with ⟨n, -, rfl⟩
        exact BlockIndex.front_zero_agrees front
    unfold ext2BlocksListed at listed
    split_ifs at listed with hole
    · obtain rfl := Option.some.inj listed
      exact direct
    · rcases Option.map_eq_some_iff.mp listed with ⟨rest, -, rfl⟩
      have solid : (inodeDirBlocks inode).takeWhile (· ≠ 0) = inodeDirBlocks inode :=
        List.takeWhile_eq_self_iff.mpr fun n member => by simpa using fun zero : n = 0 => hole (zero ▸ member)
      rw [solid] at direct
      exact direct.append rest
  have positive : 0 < (ext2Index p).fanout := Nat.pos_of_ne_zero flat
  have agrees {first : List Nat} (found : gather (fun root : Nat × Nat => (ext2Index p).front root.1 root.2)
      (((inodeDirBlocks inode).map (fun n => (0, n)) ++ inodeIndirRoots inode).takeWhile fun root : Nat × Nat => root.2 ≠ 0) = some first) :
      BlockIndex.AgreesToHole (ext2FileBlock p inode) width first :=
    BlockIndex.gather_front_agrees (fun root _ => Nat.pow_pos positive) found
      (fun root _ present part front => BlockIndex.front_agrees positive present front) width
  unfold ext2BlocksListed at listed
  split_ifs at listed with hole
  · obtain rfl := Option.some.inj listed
    apply agrees
    rw [takeWhile_hole hole]
    exact gather_direct p (not_mem_takeWhile _)
  · rcases Option.map_eq_some_iff.mp listed with ⟨rest, found, rfl⟩
    rcases BlockIndex.gather_frontPresent found with ⟨first, later, front, rfl⟩
    rw [← List.append_assoc]
    apply BlockIndex.AgreesToHole.append
    apply agrees
    rw [takeWhile_solid hole, gather_append, gather_direct p hole, front]
    rfl

end ImgEditor
