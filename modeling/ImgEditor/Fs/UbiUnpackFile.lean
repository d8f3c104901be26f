import ImgEditor.Fs.UbiEnumerate

namespace ImgEditor

open Storage

/-- The bytes of a data node, or none where `ubi_unpack_file` gives up on it. -/
def dataContent (p : UbiVolume) (leaf : UbiLeafNode) : Option (List Byte) := do
  let dnode ← ubiAllocReadCh p leaf.selfLnum leaf.selfOffs
  if chNodeType dnode = UBIFS_DATA_NODE then
    let decompress ← ubiDataNodeDecompress p dnode UBIFS_BLOCK_SIZE
    if decompress.length = leField dnode 40 4 then some decompress else none
  else none

def dataLeafs (root : UbiBranch) (ino : BitVec 32) : List UbiLeafNode := keyLeafs root UBIFS_DATA_KEY ino

def blockBytes (p : UbiVolume) (leaf : UbiLeafNode) : List Byte := (dataContent p leaf).getD []

/-- The index holds valid data nodes of different blocks, whose bytes lie inside the file. -/
structure DataNodes (p : UbiVolume) (ino : BitVec 32) (filesz : Nat) : Prop where
  index : DentIndex p.root
  distinct : ((dataLeafs p.root ino).map UbiLeafNode.hash).Nodup
  valid : ∀ leaf ∈ dataLeafs p.root ino, (dataContent p leaf).isSome
  short : ∀ leaf ∈ dataLeafs p.root ino, (blockBytes p leaf).length ≤ UBIFS_BLOCK_SIZE
  inside : ∀ leaf ∈ dataLeafs p.root ino, leaf.hash * UBIFS_BLOCK_SIZE + (blockBytes p leaf).length ≤ filesz

def blockByte (p : UbiVolume) (leafs : List UbiLeafNode) (offset : Nat) : Byte :=
  match leafs.find? fun leaf => leaf.hash = offset / UBIFS_BLOCK_SIZE with
  | none => 0#8
  | some leaf => (blockBytes p leaf).getD (offset % UBIFS_BLOCK_SIZE) 0#8

def FileRight (p : UbiVolume) (ino : BitVec 32) (filesz : Nat) : Prop :=
  ∃ fuel fd, ubiUnpackFile p fuel ino = some (fd, 0) ∧ fd.file.size = filesz ∧
    ∀ offset < filesz, fd.file.byte offset = blockByte p (dataLeafs p.root ino) offset

/-- The file can be sized, the last block index is not used, and what wraps to a lower block is zero on zero. -/
structure FileFits (p : UbiVolume) (ino : BitVec 32) (filesz : Nat) : Prop where
  sized : filesz ≤ 2^63
  ends : ∀ leaf ∈ dataLeafs p.root ino, leaf.hash ≠ 2^29 - 1
  far : ∀ leaf ∈ dataLeafs p.root ino, 2^20 ≤ leaf.hash → ∀ i, (blockBytes p leaf).getD i 0#8 = 0#8
  wrapped : ∀ leaf ∈ dataLeafs p.root ino, 2^20 ≤ leaf.hash → ∀ near ∈ dataLeafs p.root ino,
    near.hash = leaf.hash % 2^20 → ∀ i < (blockBytes p leaf).length, (blockBytes p near).getD i 0#8 = 0#8

/-! ## The writes of the loop -/

/-- The byte that the loop seeks, a product of `uint32_t`. -/
def blockOffset (leaf : UbiLeafNode) : Nat := leaf.hash * UBIFS_BLOCK_SIZE % 2^32

def writeBlock (p : UbiVolume) (file : File) (leaf : UbiLeafNode) : File :=
  file.writeAt (blockOffset leaf) (blockBytes p leaf)

def writeBlocks (p : UbiVolume) (file : File) (leafs : List UbiLeafNode) : File := leafs.foldl (writeBlock p) file

section Loop

variable {p : UbiVolume} {ino : BitVec 32} {filesz : Nat}

theorem blockOffset_eq (leaf : UbiLeafNode) : blockOffset leaf = leaf.hash % 2^20 * UBIFS_BLOCK_SIZE := by
  unfold blockOffset UBIFS_BLOCK_SIZE
  omega

theorem blockOffset_le (leaf : UbiLeafNode) : blockOffset leaf ≤ leaf.hash * UBIFS_BLOCK_SIZE := Nat.mod_le _ _

theorem hash_lt_top (leaf : UbiLeafNode) : leaf.hash < 2^29 := Nat.mod_lt _ (by decide)

theorem blockIndex_toNat (leaf : UbiLeafNode) : (leaf.key1 &&& UBIFS_S_KEY_BLOCK_MASK).toNat = leaf.hash := by
  rw [blockMask_toNat, leaf.hash_eq]

theorem blockIndex_succ {leaf : UbiLeafNode} (last : leaf.hash ≠ 2^29 - 1) :
    (leaf.key1 &&& UBIFS_S_KEY_BLOCK_MASK) + 1 = nextHashMin leaf := by
  have bound := hash_lt_top leaf
  have one : (1 : BitVec 32).toNat = 1 := rfl
  apply BitVec.eq_of_toNat_eq
  rw [nextHashMin_toNat, if_neg last, BitVec.toNat_add, blockIndex_toNat, one]
  omega

theorem dataContent_eq {leaf : UbiLeafNode} (valid : (dataContent p leaf).isSome) :
    ∃ dnode, ubiAllocReadCh p leaf.selfLnum leaf.selfOffs = some dnode ∧ chNodeType dnode = UBIFS_DATA_NODE ∧
      ubiDataNodeDecompress p dnode UBIFS_BLOCK_SIZE = some (blockBytes p leaf) ∧
      (blockBytes p leaf).length = leField dnode 40 4 := by
  rcases Option.isSome_iff_exists.mp valid with ⟨bytes, content⟩
  have same : blockBytes p leaf = bytes := by rw [blockBytes, content, Option.getD_some]
  simp only [dataContent, Option.bind_eq_bind, Option.bind_eq_some_iff] at content
  rcases content with ⟨dnode, read, node⟩
  split at node
  · rename_i isData
    rcases Option.bind_eq_some_iff.mp node with ⟨decompress, done, sized⟩
    split at sized
    · rename_i length
      rw [same, ← Option.some.inj sized]
      exact ⟨dnode, read, isData, done, length⟩
    · cases sized
  · cases node

theorem unpackBlocks_step {leaf : UbiLeafNode} {dataBlock : BitVec 32} {n : Nat} (fuel : Nat) (fd : Fd)
    (more : n < filesz) (search : ubiBptreeFind p.root UBIFS_DATA_KEY ino dataBlock 0xffffffff = some leaf)
    (valid : (dataContent p leaf).isSome) :
    unpackBlocks p ino filesz (fuel + 1) dataBlock n fd =
      unpackBlocks p ino filesz fuel ((leaf.key1 &&& UBIFS_S_KEY_BLOCK_MASK) + 1)
        (blockOffset leaf + (blockBytes p leaf).length) ((fd.lseek64 (blockOffset leaf)).write (blockBytes p leaf)) := by
  rcases dataContent_eq valid with ⟨dnode, read, isData, content, length⟩
  have node : ubiAllocReadDataNode p ino dataBlock 0xffffffff =
      some (dnode, leaf.key1 &&& UBIFS_S_KEY_BLOCK_MASK) := by
    simp only [ubiAllocReadDataNode, search, read, Option.bind_eq_bind, Option.bind_some]
    rw [if_pos isData]
  simp only [unpackBlocks, node, content]
  rw [if_neg (not_not.mpr more), if_neg (not_not.mpr length), blockIndex_toNat, ← length, blockOffset]

theorem unpackBlocks_end {dataBlock : BitVec 32} {n : Nat} (fd : Fd)
    (ended : n < filesz → ubiBptreeFind p.root UBIFS_DATA_KEY ino dataBlock 0xffffffff = none) :
    unpackBlocks p ino filesz 1 dataBlock n fd = some (fd, 0) := by
  by_cases more : n < filesz
  · have node : ubiAllocReadDataNode p ino dataBlock 0xffffffff = none := by
      simp only [ubiAllocReadDataNode, ended more, Option.bind_eq_bind, Option.bind_none]
    simp only [unpackBlocks, node]
    rw [if_neg (not_not.mpr more)]
  · simp only [unpackBlocks]
    rw [if_pos more]

theorem seek_write_file (fd : Fd) (leaf : UbiLeafNode) (bytes : List Byte) :
    ((fd.lseek64 (blockOffset leaf)).write bytes).file = fd.file.writeAt (blockOffset leaf) bytes := by
  have bound : blockOffset leaf < 2^32 := Nat.mod_lt _ (by decide)
  rw [Fd.write_file, Fd.lseek64_file, Fd.lseek64_pos _ _ (bound.trans (by decide))]

theorem writeBlocks_empty {leafs : List UbiLeafNode} (file : File) (empty : ∀ leaf ∈ leafs, blockBytes p leaf = []) :
    writeBlocks p file leafs = file := by
  induction leafs with
  | nil => rfl
  | cons leaf rest ih =>
    rcases List.forall_mem_cons.mp empty with ⟨first, others⟩
    rw [writeBlocks, List.foldl_cons, writeBlock, first, File.writeAt_nil]
    exact ih others

theorem DataNodes.keys_nodup (nodes : DataNodes p ino filesz) {before rest : List UbiLeafNode}
    (split : dataLeafs p.root ino = before ++ rest) : (rest.map UbiLeafNode.keyNat).Nodup := by
  have distinct := nodes.distinct
  rw [split, List.map_append] at distinct
  have hashes := (List.nodup_append.mp distinct).2.1
  have through : rest.map UbiLeafNode.hash = (rest.map UbiLeafNode.keyNat).map (· % 2^29) := by
    rw [List.map_map]
    rfl
  rw [through] at hashes
  exact hashes.of_map

/-- A block behind the end of the one before it has no bytes where that end is the end of the file. -/
theorem DataNodes.empty_behind (nodes : DataNodes p ino filesz) {leaf other : UbiLeafNode}
    (leafMember : leaf ∈ dataLeafs p.root ino) (member : other ∈ dataLeafs p.root ino) (later : leaf.hash < other.hash)
    (ended : filesz ≤ blockOffset leaf + (blockBytes p leaf).length) : blockBytes p other = [] := by
  have start := blockOffset_le leaf
  have short := nodes.short leaf leafMember
  have inside := nodes.inside other member
  have next : (leaf.hash + 1) * UBIFS_BLOCK_SIZE ≤ other.hash * UBIFS_BLOCK_SIZE := Nat.mul_le_mul_right _ later
  rw [Nat.add_mul, Nat.one_mul] at next
  exact List.eq_nil_of_length_eq_zero (by omega)

/-- Without a node at the last index the loop writes all blocks that are left. -/
theorem unpackBlocks_writes (nodes : DataNodes p ino filesz) (ends : ∀ leaf ∈ dataLeafs p.root ino, leaf.hash ≠ 2^29 - 1)
    {before rest : List UbiLeafNode} (split : dataLeafs p.root ino = before ++ rest) (dataBlock : BitVec 32) (n : Nat)
    (fd : Fd) (passed : ∀ leaf ∈ before, leaf.hash < dataBlock.toNat % 2^29)
    (ahead : ∀ leaf ∈ rest, dataBlock.toNat % 2^29 ≤ leaf.hash)
    (ended : filesz ≤ n → ∀ leaf ∈ rest, blockBytes p leaf = []) :
    ∃ fuel out, unpackBlocks p ino filesz fuel dataBlock n fd = some (out, 0) ∧
      out.file = writeBlocks p fd.file rest := by
  induction rest generalizing before dataBlock n fd with
  | nil =>
    refine ⟨1, fd, unpackBlocks_end fd fun _ => ?_, rfl⟩
    apply findFrom_none nodes.index
    rw [← dataLeafs, split, List.append_nil]
    exact passed
  | cons leaf rest ih =>
    by_cases more : n < filesz
    · have member : leaf ∈ dataLeafs p.root ino := by
        rw [split]
        exact List.mem_append_right _ List.mem_cons_self
      have keys := nodes.keys_nodup split
      have search := findFrom_next nodes.index split keys passed (ahead leaf List.mem_cons_self)
      have last := ends leaf member
      have step := fun fuel => unpackBlocks_step fuel fd more search (nodes.valid leaf member)
      have between := nextHashMin_between nodes.index split keys last passed (ahead leaf List.mem_cons_self)
      have empty : filesz ≤ blockOffset leaf + (blockBytes p leaf).length → ∀ other ∈ rest, blockBytes p other = [] := by
        intro stops other later
        have otherMember : other ∈ dataLeafs p.root ino := by
          rw [split]
          exact List.mem_append_right _ (List.mem_cons_of_mem _ later)
        exact nodes.empty_behind member otherMember (hash_lt nodes.index split keys other later) stops
      have rest' : dataLeafs p.root ino = (before ++ [leaf]) ++ rest := by rw [split, List.append_assoc, List.singleton_append]
      rw [blockIndex_succ last] at step
      rcases ih rest' (nextHashMin leaf) (blockOffset leaf + (blockBytes p leaf).length) _ between.1 between.2 empty with
        ⟨fuel, out, done, written⟩
      refine ⟨fuel + 1, out, (step fuel).trans done, ?_⟩
      rw [written, seek_write_file, writeBlocks, writeBlocks, List.foldl_cons, writeBlock]
    · refine ⟨1, fd, unpackBlocks_end fd fun less => absurd less more, ?_⟩
      exact (writeBlocks_empty fd.file (ended (Nat.le_of_not_lt more))).symm

/-- Behind the last block index the search begins again at the first one. -/
theorem unpackBlocks_restarts (nodes : DataNodes p ino filesz) {last : UbiLeafNode} (member : last ∈ dataLeafs p.root ino)
    (top : last.hash = 2^29 - 1) (fuel : Nat) (dataBlock : BitVec 32) (n : Nat) (fd : Fd) (more : n < filesz) :
    unpackBlocks p ino filesz fuel dataBlock n fd = none := by
  induction fuel generalizing dataBlock n fd with
  | zero => rfl
  | succ fuel ih =>
    have answered := findFrom nodes.index UBIFS_DATA_KEY ino dataBlock
    cases search : ubiBptreeFind p.root UBIFS_DATA_KEY ino dataBlock 0xffffffff with
    | none =>
      rw [search] at answered
      exact absurd ⟨by omega, by omega⟩ (answered last member)
    | some leaf =>
      rw [search] at answered
      rw [unpackBlocks_step fuel fd more search (nodes.valid leaf answered.1)]
      have large := nodes.inside last member
      have short := nodes.short leaf answered.1
      have start := blockOffset_eq leaf
      have below : leaf.hash % 2^20 < 2^20 := Nat.mod_lt _ (by decide)
      apply ih
      unfold UBIFS_BLOCK_SIZE at large short start
      omega

/-! ## The bytes that are written -/

theorem blockByte_none {leafs : List UbiLeafNode} {offset : Nat}
    (missing : ∀ leaf ∈ leafs, leaf.hash ≠ offset / UBIFS_BLOCK_SIZE) : blockByte p leafs offset = 0#8 := by
  have search : leafs.find? (fun leaf => leaf.hash = offset / UBIFS_BLOCK_SIZE) = none := by
    rw [List.find?_eq_none]
    intro leaf member
    simpa using missing leaf member
  rw [blockByte, search]

theorem blockByte_some {leafs : List UbiLeafNode} {offset : Nat} {leaf : UbiLeafNode}
    (distinct : (leafs.map UbiLeafNode.hash).Nodup) (member : leaf ∈ leafs) (here : leaf.hash = offset / UBIFS_BLOCK_SIZE) :
    blockByte p leafs offset = (blockBytes p leaf).getD (offset % UBIFS_BLOCK_SIZE) 0#8 := by
  unfold blockByte
  cases search : leafs.find? (fun leaf => leaf.hash = offset / UBIFS_BLOCK_SIZE) with
  | none =>
    have missing := List.find?_eq_none.mp search leaf member
    exact absurd here (by simpa using missing)
  | some found =>
    have same : found.hash = offset / UBIFS_BLOCK_SIZE := by simpa using List.find?_some search
    have unique := List.inj_on_of_nodup_map distinct (List.mem_of_find?_eq_some search) member (same.trans here.symm)
    rw [unique]

theorem writeBlocks_size (leafs : List UbiLeafNode) (file : File) {size : Nat} (grown : file.size ≤ size)
    (inside : ∀ leaf ∈ leafs, blockOffset leaf + (blockBytes p leaf).length ≤ size) :
    file.size ≤ (writeBlocks p file leafs).size ∧ (writeBlocks p file leafs).size ≤ size := by
  induction leafs generalizing file with
  | nil => exact ⟨Nat.le_refl _, grown⟩
  | cons leaf rest ih =>
    rcases List.forall_mem_cons.mp inside with ⟨first, others⟩
    have upper := File.writeAt_size_le file (blockOffset leaf) (blockBytes p leaf)
    have lower := File.size_le_writeAt file (blockOffset leaf) (blockBytes p leaf)
    rcases ih (writeBlock p file leaf) (by unfold writeBlock; omega) others with ⟨more, less⟩
    exact ⟨lower.trans more, less⟩

theorem writeBlocks_beyond {leafs : List UbiLeafNode} (file : File)
    (short : ∀ leaf ∈ leafs, (blockBytes p leaf).length ≤ UBIFS_BLOCK_SIZE) {offset : Nat} (beyond : 2^32 ≤ offset) :
    (writeBlocks p file leafs).byte offset = file.byte offset := by
  induction leafs generalizing file with
  | nil => rfl
  | cons leaf rest ih =>
    rcases List.forall_mem_cons.mp short with ⟨first, others⟩
    rw [writeBlocks, List.foldl_cons]
    refine (ih _ others).trans (File.writeAt_byte_outside _ _ _ _ (.inr ?_))
    have start := blockOffset_eq leaf
    have below : leaf.hash % 2^20 < 2^20 := Nat.mod_lt _ (by decide)
    unfold UBIFS_BLOCK_SIZE at start first
    omega

theorem writeBlocks_zero {leafs : List UbiLeafNode} (file : File)
    (zeros : ∀ leaf ∈ leafs, ∀ i, (blockBytes p leaf).getD i 0#8 = 0#8) {offset : Nat} (zero : file.byte offset = 0#8) :
    (writeBlocks p file leafs).byte offset = 0#8 := by
  induction leafs generalizing file with
  | nil => exact zero
  | cons leaf rest ih =>
    rcases List.forall_mem_cons.mp zeros with ⟨first, others⟩
    refine ih (writeBlock p file leaf) others ?_
    simp only [writeBlock, File.writeAt]
    split
    · exact first _
    · exact zero

section Next

variable {before : List UbiLeafNode} {leaf : UbiLeafNode} {offset : Nat}

theorem blockByte_here (distinct : ((before ++ [leaf]).map UbiLeafNode.hash).Nodup)
    (here : leaf.hash = offset / UBIFS_BLOCK_SIZE) :
    blockByte p before offset = 0#8 ∧
      blockByte p (before ++ [leaf]) offset = (blockBytes p leaf).getD (offset % UBIFS_BLOCK_SIZE) 0#8 := by
  refine ⟨blockByte_none ?_, blockByte_some distinct (List.mem_append_right _ List.mem_cons_self) here⟩
  intro other member same
  rw [List.map_append] at distinct
  have apart := (List.nodup_append.mp distinct).2.2 _ (List.mem_map_of_mem member) _ List.mem_cons_self
  exact apart (same.trans here.symm)

theorem blockByte_elsewhere (elsewhere : leaf.hash ≠ offset / UBIFS_BLOCK_SIZE) :
    blockByte p (before ++ [leaf]) offset = blockByte p before offset := by
  have passed : [leaf].find? (fun leaf => leaf.hash = offset / UBIFS_BLOCK_SIZE) = none := by
    rw [List.find?_eq_none]
    intro other member
    rw [List.mem_singleton.mp member]
    simpa using elsewhere
  unfold blockByte
  rw [List.find?_append, passed, Option.or_none]

theorem writeBlock_near (distinct : ((before ++ [leaf]).map UbiLeafNode.hash).Nodup) (near : leaf.hash < 2^20)
    (short : (blockBytes p leaf).length ≤ UBIFS_BLOCK_SIZE) (file : File)
    (written : file.byte offset = blockByte p before offset) :
    (writeBlock p file leaf).byte offset = blockByte p (before ++ [leaf]) offset := by
  have start := blockOffset_eq leaf
  rw [Nat.mod_eq_of_lt near] at start
  have whole := Nat.div_add_mod' offset UBIFS_BLOCK_SIZE
  have part : offset % UBIFS_BLOCK_SIZE < UBIFS_BLOCK_SIZE := Nat.mod_lt _ (by decide)
  unfold writeBlock
  by_cases here : leaf.hash = offset / UBIFS_BLOCK_SIZE
  · rcases blockByte_here (p := p) distinct here with ⟨missing, found⟩
    rw [found]
    rw [← here, ← start] at whole
    by_cases inside : offset % UBIFS_BLOCK_SIZE < (blockBytes p leaf).length
    · rw [File.writeAt_byte_inside _ _ _ _ (by omega) (by omega)]
      congr 1
      omega
    · rw [File.writeAt_byte_outside _ _ _ _ (.inr (by omega)), written, missing]
      exact (List.getD_eq_default _ _ (Nat.le_of_not_lt inside)).symm
  · rw [blockByte_elsewhere here, ← written]
    apply File.writeAt_byte_outside
    rcases Nat.lt_or_gt_of_ne here with lower | upper
    · have behind := Nat.mul_le_mul_right UBIFS_BLOCK_SIZE (Nat.succ_le_of_lt lower)
      rw [Nat.succ_mul] at behind
      exact .inr (by omega)
    · have front := Nat.mul_le_mul_right UBIFS_BLOCK_SIZE (Nat.succ_le_of_lt upper)
      rw [Nat.succ_mul] at front
      exact .inl (by omega)

/-- A block of zeros is written where zeros are, and belongs where zeros are. -/
theorem writeBlock_far (distinct : ((before ++ [leaf]).map UbiLeafNode.hash).Nodup)
    (zeros : ∀ i, (blockBytes p leaf).getD i 0#8 = 0#8)
    (near : ∀ near ∈ before, near.hash = leaf.hash % 2^20 →
      ∀ i < (blockBytes p leaf).length, (blockBytes p near).getD i 0#8 = 0#8)
    (short : (blockBytes p leaf).length ≤ UBIFS_BLOCK_SIZE) (file : File)
    (written : file.byte offset = blockByte p before offset) :
    (writeBlock p file leaf).byte offset = blockByte p (before ++ [leaf]) offset := by
  have start := blockOffset_eq leaf
  have whole := Nat.div_add_mod' offset UBIFS_BLOCK_SIZE
  have same : blockByte p (before ++ [leaf]) offset = blockByte p before offset := by
    by_cases here : leaf.hash = offset / UBIFS_BLOCK_SIZE
    · rcases blockByte_here (p := p) distinct here with ⟨missing, found⟩
      rw [found, missing, zeros]
    · exact blockByte_elsewhere here
  rw [same]
  simp only [writeBlock, File.writeAt]
  split
  · rename_i inside
    rw [zeros]
    have block : offset / UBIFS_BLOCK_SIZE = leaf.hash % 2^20 := by
      unfold UBIFS_BLOCK_SIZE at *
      omega
    have place : offset % UBIFS_BLOCK_SIZE < (blockBytes p leaf).length := by
      rw [block] at whole
      omega
    by_cases found : ∃ other ∈ before, other.hash = offset / UBIFS_BLOCK_SIZE
    · rcases found with ⟨other, member, here⟩
      rw [List.map_append] at distinct
      rw [blockByte_some (List.nodup_append.mp distinct).1 member here]
      exact (near other member (here.trans block) _ place).symm
    · exact (blockByte_none fun other member here => found ⟨other, member, here⟩).symm
  · exact written

end Next

theorem writeBlocks_byte (nodes : DataNodes p ino filesz) (fits : FileFits p ino filesz) {before rest : List UbiLeafNode}
    (split : dataLeafs p.root ino = before ++ rest) (file : File) {offset : Nat}
    (written : file.byte offset = blockByte p before offset) :
    (writeBlocks p file rest).byte offset = blockByte p (dataLeafs p.root ino) offset := by
  induction rest generalizing before file with
  | nil =>
    rw [split, List.append_nil]
    exact written
  | cons leaf rest ih =>
    have member : leaf ∈ dataLeafs p.root ino := by
      rw [split]
      exact List.mem_append_right _ List.mem_cons_self
    rw [List.append_cons] at split
    have distinct := nodes.distinct
    rw [split, List.map_append] at distinct
    apply ih split
    by_cases far : 2^20 ≤ leaf.hash
    · refine writeBlock_far (List.nodup_append.mp distinct).1 (fits.far leaf member far) ?_
        (nodes.short leaf member) file written
      intro near nearMember
      apply fits.wrapped leaf member far near
      rw [split]
      exact List.mem_append_left _ (List.mem_append_left _ nearMember)
    · exact writeBlock_near (List.nodup_append.mp distinct).1 (Nat.lt_of_not_le far) (nodes.short leaf member) file written

end Loop

/-! ## The file -/

section File

variable {p : UbiVolume} {ino : BitVec 32} {inode : List Byte}

/-- The file as it is sized before the loop: one zero at its end, or at its start where the end is out of reach. -/
def presized (filesz : Nat) : Fd := (Fd.created.lseek64 (filesz - 1)).write [0#8]

theorem presized_byte (filesz offset : Nat) : (presized filesz).file.byte offset = 0#8 := by
  rw [presized, Fd.write_file, Fd.lseek64_file]
  simp only [File.writeAt]
  split
  · rename_i inside
    have here : offset - (Fd.created.lseek64 (filesz - 1)).pos = 0 := by
      rw [List.length_singleton] at inside
      omega
    rw [here]
    rfl
  · rfl

theorem presized_size {filesz : Nat} (filled : filesz ≠ 0) (small : filesz < 2^64) :
    (presized filesz).file.size = if filesz ≤ 2^63 then filesz else 1 := by
  have zero : File.empty.size = 0 := rfl
  rw [presized, Fd.write_file, File.writeAt_size _ _ _ (List.cons_ne_nil _ _), Fd.lseek64_file, List.length_singleton]
  split
  · rw [Fd.lseek64_pos _ _ (by omega)]
    change max 0 _ = _
    omega
  · unfold Fd.lseek64
    rw [if_neg (by omega)]
    rfl

theorem ubiUnpackFile_blocks (read : ubiAllocReadInode p ino = some inode) (filled : leField inode 48 8 ≠ 0) (fuel : Nat) :
    ubiUnpackFile p fuel ino = unpackBlocks p ino (leField inode 48 8) fuel 0 0 (presized (leField inode 48 8)) := by
  simp only [ubiUnpackFile, read]
  rw [if_neg filled, presized]

theorem DataNodes.offset_le {filesz : Nat} (nodes : DataNodes p ino filesz) {leaf : UbiLeafNode}
    (member : leaf ∈ dataLeafs p.root ino) : blockOffset leaf + (blockBytes p leaf).length ≤ filesz :=
  (Nat.add_le_add_right (blockOffset_le leaf) _).trans (nodes.inside leaf member)

theorem ubiUnpackFile_written (nodes : DataNodes p ino (leField inode 48 8))
    (ends : ∀ leaf ∈ dataLeafs p.root ino, leaf.hash ≠ 2^29 - 1) (read : ubiAllocReadInode p ino = some inode)
    (filled : leField inode 48 8 ≠ 0) : ∃ fuel out, ubiUnpackFile p fuel ino = some (out, 0) ∧
      out.file = writeBlocks p (presized (leField inode 48 8)).file (dataLeafs p.root ino) := by
  have before : dataLeafs p.root ino = [] ++ dataLeafs p.root ino := (List.nil_append _).symm
  rcases unpackBlocks_writes nodes ends before 0 0 (presized (leField inode 48 8)) nofun (fun _ _ => Nat.zero_le _)
    (fun ended => absurd (Nat.eq_zero_of_le_zero ended) filled) with ⟨fuel, out, done, written⟩
  exact ⟨fuel, out, (ubiUnpackFile_blocks read filled fuel).trans done, written⟩

theorem fileFits_empty (nodes : DataNodes p ino 0) : FileFits p ino 0 := by
  have first : ∀ leaf ∈ dataLeafs p.root ino, leaf.hash < 2^20 := by
    intro leaf member
    have inside := nodes.inside leaf member
    unfold UBIFS_BLOCK_SIZE at inside
    omega
  refine ⟨Nat.zero_le _, fun leaf member last => ?_, fun leaf member far => ?_, fun leaf member far => ?_⟩
  · have low := first leaf member
    rw [last] at low
    exact absurd low (by decide)
  · exact absurd far (Nat.not_le_of_lt (first leaf member))
  · exact absurd far (Nat.not_le_of_lt (first leaf member))

theorem fileRight_empty (read : ubiAllocReadInode p ino = some inode) (empty : leField inode 48 8 = 0) :
    FileRight p ino (leField inode 48 8) := by
  refine ⟨0, .created, ?_, empty.symm, fun offset inside => ?_⟩
  · simp only [ubiUnpackFile, read]
    rw [if_pos empty]
  · rw [empty] at inside
    exact absurd inside (Nat.not_lt_zero _)

theorem fileRight_of_fits (nodes : DataNodes p ino (leField inode 48 8)) (read : ubiAllocReadInode p ino = some inode)
    (filled : leField inode 48 8 ≠ 0) (fits : FileFits p ino (leField inode 48 8)) :
    FileRight p ino (leField inode 48 8) := by
  rcases ubiUnpackFile_written nodes fits.ends read filled with ⟨fuel, out, done, written⟩
  have sized := presized_size filled (leField_lt inode 48 8)
  rw [if_pos fits.sized] at sized
  refine ⟨fuel, out, done, ?_, fun offset _ => ?_⟩
  · have size := writeBlocks_size _ _ (Nat.le_of_eq sized) fun leaf member => nodes.offset_le member
    rw [written]
    omega
  · rw [written]
    exact writeBlocks_byte nodes fits (List.nil_append _).symm _ (presized_byte _ offset)

section Right

variable (nodes : DataNodes p ino (leField inode 48 8)) (read : ubiAllocReadInode p ino = some inode)
  (filled : leField inode 48 8 ≠ 0) (right : FileRight p ino (leField inode 48 8))

include nodes read filled right

theorem fileRight_ends (leaf : UbiLeafNode) (member : leaf ∈ dataLeafs p.root ino) : leaf.hash ≠ 2^29 - 1 := by
  intro top
  rcases right with ⟨fuel, fd, done, _⟩
  rw [ubiUnpackFile_blocks read filled,
    unpackBlocks_restarts nodes member top fuel 0 0 _ (Nat.pos_of_ne_zero filled)] at done
  cases done

theorem fileRight_file : (writeBlocks p (presized (leField inode 48 8)).file (dataLeafs p.root ino)).size = leField inode 48 8 ∧
    ∀ offset < leField inode 48 8, (writeBlocks p (presized (leField inode 48 8)).file (dataLeafs p.root ino)).byte offset =
      blockByte p (dataLeafs p.root ino) offset := by
  rcases ubiUnpackFile_written nodes (fileRight_ends nodes read filled right) read filled with ⟨fuel, out, done, written⟩
  rcases right with ⟨other, fd, again, size, bytes⟩
  have first := ubiUnpackFile_more done other
  have second := ubiUnpackFile_more again fuel
  rw [Nat.add_comm other fuel, first] at second
  rw [← written, (Prod.mk.inj (Option.some.inj second)).1]
  exact ⟨size, bytes⟩

theorem fileRight_sized : leField inode 48 8 ≤ 2^63 := by
  by_contra large
  have sized := presized_size filled (leField_lt inode 48 8)
  rw [if_neg large] at sized
  have inside : ∀ leaf ∈ dataLeafs p.root ino, blockOffset leaf + (blockBytes p leaf).length ≤ 2^63 := by
    intro leaf member
    have start : blockOffset leaf < 2^32 := Nat.mod_lt _ (by decide)
    have short := nodes.short leaf member
    unfold UBIFS_BLOCK_SIZE at short
    omega
  have size := (writeBlocks_size _ (presized (leField inode 48 8)).file (by omega) inside).2
  rw [(fileRight_file nodes read filled right).1] at size
  exact large size

theorem fileRight_far (leaf : UbiLeafNode) (member : leaf ∈ dataLeafs p.root ino) (far : 2^20 ≤ leaf.hash) (i : Nat) :
    (blockBytes p leaf).getD i 0#8 = 0#8 := by
  by_cases inside : i < (blockBytes p leaf).length
  · have short := nodes.short leaf member
    have last := nodes.inside leaf member
    have bytes := (fileRight_file nodes read filled right).2 (leaf.hash * UBIFS_BLOCK_SIZE + i) (by omega)
    have beyond : 2^32 ≤ leaf.hash * UBIFS_BLOCK_SIZE + i := by
      unfold UBIFS_BLOCK_SIZE
      omega
    have here : leaf.hash = (leaf.hash * UBIFS_BLOCK_SIZE + i) / UBIFS_BLOCK_SIZE := by
      unfold UBIFS_BLOCK_SIZE at short ⊢
      omega
    have place : (leaf.hash * UBIFS_BLOCK_SIZE + i) % UBIFS_BLOCK_SIZE = i := by
      unfold UBIFS_BLOCK_SIZE at short ⊢
      omega
    rw [writeBlocks_beyond _ nodes.short beyond, presized_byte, blockByte_some nodes.distinct member here, place] at bytes
    exact bytes.symm
  · exact List.getD_eq_default _ _ (Nat.le_of_not_lt inside)

theorem fileRight_wrapped (leaf : UbiLeafNode) (member : leaf ∈ dataLeafs p.root ino) (far : 2^20 ≤ leaf.hash)
    (near : UbiLeafNode) (nearMember : near ∈ dataLeafs p.root ino) (wrapped : near.hash = leaf.hash % 2^20) (i : Nat)
    (inside : i < (blockBytes p leaf).length) : (blockBytes p near).getD i 0#8 = 0#8 := by
  rcases List.append_of_mem member with ⟨before, rest, split⟩
  have zeros := fileRight_far nodes read filled right
  have short := nodes.short leaf member
  have last := nodes.inside leaf member
  have start := blockOffset_eq leaf
  have bytes := (fileRight_file nodes read filled right).2 (blockOffset leaf + i)
    (by have offset := blockOffset_le leaf; omega)
  have here : near.hash = (blockOffset leaf + i) / UBIFS_BLOCK_SIZE := by
    rw [start]
    unfold UBIFS_BLOCK_SIZE at short ⊢
    omega
  have place : (blockOffset leaf + i) % UBIFS_BLOCK_SIZE = i := by
    rw [start]
    unfold UBIFS_BLOCK_SIZE at short ⊢
    omega
  rw [blockByte_some nodes.distinct nearMember here, place, split, writeBlocks, List.foldl_append, List.foldl_cons] at bytes
  rw [← bytes]
  -- the blocks that are written later are far ones too
  apply writeBlocks_zero
  · intro other later
    have otherMember : other ∈ dataLeafs p.root ino := by
      rw [split]
      exact List.mem_append_right _ (List.mem_cons_of_mem _ later)
    have above := hash_lt nodes.index split (nodes.keys_nodup split) other later
    exact zeros other otherMember (by omega)
  · rw [writeBlock, File.writeAt_byte_inside _ _ _ _ (Nat.le_add_right _ _) (Nat.add_lt_add_left inside _)]
    exact zeros leaf member far _

end Right

end File

/-- A file of valid data nodes is unpacked right exactly if it fits. -/
theorem ubiUnpackFile_right_iff (p : UbiVolume) (ino : BitVec 32) (inode : List Byte)
    (read : ubiAllocReadInode p ino = some inode) (nodes : DataNodes p ino (leField inode 48 8)) :
    FileRight p ino (leField inode 48 8) ↔ FileFits p ino (leField inode 48 8) := by
  by_cases empty : leField inode 48 8 = 0
  · refine iff_of_true (fileRight_empty read empty) ?_
    rw [empty] at nodes ⊢
    exact fileFits_empty nodes
  · constructor
    · intro right
      exact ⟨fileRight_sized nodes read empty right, fileRight_ends nodes read empty right,
        fileRight_far nodes read empty right, fileRight_wrapped nodes read empty right⟩
    · exact fileRight_of_fits nodes read empty

def oneLeaf (block : BitVec 32) : UbiLeafNode := ⟨2, 0x20000000 ||| block, 8, 0⟩

def oneBlock (block : BitVec 32) (filesz : Nat) : UbiVolume where
  root := .mk 0 (.ofLeafs [⟨2, 0, 7, 0⟩, oneLeaf block])
  readLeb := fun lnum =>
    if lnum = 7 then some (ubifsNode 0 (List.replicate 24 0#8 ++ leBytes 8 filesz ++ List.replicate 104 0#8) ++
      List.replicate 24 0xff#8)
    else if lnum = 8 then some (ubifsNode 1 (List.replicate 16 0#8 ++ leBytes 4 1 ++ List.replicate 4 0#8 ++ [0x41#8]) ++
      List.replicate 24 0xff#8)
    else none
  lzo1xDecompressSafe := fun _ _ => none

theorem oneBlock_nodes {block : BitVec 32} {filesz : Nat}
    (sorted : KeySearch.Sorted UbiLeafNode.keyNat (oneBlock block filesz).root.leafs)
    (data : dataLeafs (oneBlock block filesz).root 2 = [oneLeaf block])
    (content : dataContent (oneBlock block filesz) (oneLeaf block) = some [0x41#8])
    (inside : (oneLeaf block).hash * UBIFS_BLOCK_SIZE + 1 ≤ filesz) : DataNodes (oneBlock block filesz) 2 filesz := by
  have bytes : blockBytes (oneBlock block filesz) (oneLeaf block) = [0x41#8] := by rw [blockBytes, content, Option.getD_some]
  refine ⟨⟨⟨0, ?_⟩, ?_, ?_, sorted⟩, ?_, ?_, ?_, ?_⟩
  · simp [oneBlock, UbiBranch.Uniform, BranchEntries.ofLeafs, BranchEntries.Uniform]
  · simp [oneBlock, UbiBranch.NonEmpty, BranchEntries.ofLeafs, BranchEntries.NonEmpty, BranchEntries.isEmpty]
  · simp [oneBlock, UbiBranch.Separated, BranchEntries.ofLeafs, BranchEntries.Separated]
  · rw [data]
    exact List.nodup_singleton _
  · rw [data, List.forall_mem_singleton, content]
    rfl
  · rw [data, List.forall_mem_singleton, bytes]
    decide
  · rw [data, List.forall_mem_singleton, bytes]
    exact inside

theorem ubiUnpackFile_right_iff_oneBlock : FileRight (oneBlock 3 12289) 2 12289 := by
  have read : (ubiAllocReadInode (oneBlock 3 12289) 2).map (leField · 48 8) = some 12289 ∧
      dataLeafs (oneBlock 3 12289).root 2 = [oneLeaf 3] ∧
      dataContent (oneBlock 3 12289) (oneLeaf 3) = some [0x41#8] := by decide +kernel
  rcases read with ⟨size, data, content⟩
  rcases Option.map_eq_some_iff.mp size with ⟨inode, read, size⟩
  have sorted : KeySearch.Sorted UbiLeafNode.keyNat (oneBlock 3 12289).root.leafs := by
    simp only [oneBlock, KeySearch.Sorted, UbiBranch.leafs, BranchEntries.ofLeafs, BranchEntries.leafs]
    decide
  have nodes : DataNodes (oneBlock 3 12289) 2 (leField inode 48 8) := by
    rw [size]
    exact oneBlock_nodes sorted data content (by decide)
  have exact_iff := ubiUnpackFile_right_iff (oneBlock 3 12289) 2 inode read nodes
  rw [size] at exact_iff
  apply exact_iff.mpr
  refine ⟨by decide, ?_, ?_, ?_⟩
  · rw [data, List.forall_mem_singleton]
    decide
  · rw [data, List.forall_mem_singleton]
    exact fun far => absurd far (by decide)
  · rw [data, List.forall_mem_singleton]
    exact fun far => absurd far (by decide)

/-- The letter at 4 GiB is written to the start of the file. -/
theorem ubiUnpackFile_wraps : DataNodes (oneBlock 0x100000 (2^32 + 1)) 2 (2^32 + 1) ∧
    (ubiAllocReadInode (oneBlock 0x100000 (2^32 + 1)) 2).map (leField · 48 8) = some (2^32 + 1) ∧
    ¬ FileRight (oneBlock 0x100000 (2^32 + 1)) 2 (2^32 + 1) := by
  have read : (ubiAllocReadInode (oneBlock 0x100000 (2^32 + 1)) 2).map (leField · 48 8) = some (2^32 + 1) ∧
      dataLeafs (oneBlock 0x100000 (2^32 + 1)).root 2 = [oneLeaf 0x100000] ∧
      dataContent (oneBlock 0x100000 (2^32 + 1)) (oneLeaf 0x100000) = some [0x41#8] := by decide +kernel
  rcases read with ⟨size, data, content⟩
  have sorted : KeySearch.Sorted UbiLeafNode.keyNat (oneBlock 0x100000 (2^32 + 1)).root.leafs := by
    simp only [oneBlock, KeySearch.Sorted, UbiBranch.leafs, BranchEntries.ofLeafs, BranchEntries.leafs]
    decide
  have nodes := oneBlock_nodes sorted data content (by decide)
  refine ⟨nodes, size, fun right => ?_⟩
  rcases Option.map_eq_some_iff.mp size with ⟨inode, read, size⟩
  have member : oneLeaf 0x100000 ∈ dataLeafs (oneBlock 0x100000 (2^32 + 1)).root 2 := by
    rw [data]
    exact List.mem_cons_self
  have filled : leField inode 48 8 ≠ 0 := by
    rw [size]
    decide
  have zero := fileRight_far (by rwa [size]) read filled (by rwa [size]) (oneLeaf 0x100000) member (by decide) 0
  rw [blockBytes, content] at zero
  exact absurd zero (by decide)

end ImgEditor
