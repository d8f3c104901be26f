import ImgEditor.Fs.UbiVisit

namespace ImgEditor

open Storage

section Files

variable {p : UbiVolume}

theorem unpackBlocks_more {ino : BitVec 32} {filesz fuel : Nat} {dataBlock : BitVec 32} {n : Nat} {fd : Fd}
    {out : Fd × Int} (done : unpackBlocks p ino filesz fuel dataBlock n fd = some out) (more : Nat) :
    unpackBlocks p ino filesz (fuel + more) dataBlock n fd = some out := by
  induction fuel generalizing dataBlock n fd with
  | zero => simp [unpackBlocks] at done
  | succ fuel ih =>
    rw [Nat.add_right_comm]
    simp only [unpackBlocks] at done ⊢
    by_cases ended : ¬ n < filesz
    · rw [if_pos ended] at done ⊢
      exact done
    rw [if_neg ended] at done ⊢
    rcases read : ubiAllocReadDataNode p ino dataBlock 0xffffffff with _ | ⟨dnode, blkIdx⟩
    · simpa only [read] using done
    simp only [read] at done ⊢
    cases content : ubiDataNodeDecompress p dnode UBIFS_BLOCK_SIZE with
    | none => simpa only [content] using done
    | some decompress =>
      simp only [content] at done ⊢
      by_cases short : decompress.length ≠ leField dnode 40 4
      · rw [if_pos short] at done ⊢
        exact done
      · rw [if_neg short] at done ⊢
        exact ih done

theorem ubiUnpackFile_more {fuel : Nat} {ino : BitVec 32} {out : Fd × Int}
    (done : ubiUnpackFile p fuel ino = some out) (more : Nat) : ubiUnpackFile p (fuel + more) ino = some out := by
  unfold ubiUnpackFile at done ⊢
  cases read : ubiAllocReadInode p ino with
  | none => simpa only [read] using done
  | some inode =>
    simp only [read] at done ⊢
    by_cases empty : leField inode 48 8 = 0
    · rw [if_pos empty] at done ⊢
      exact done
    · rw [if_neg empty] at done ⊢
      exact unpackBlocks_more done more

theorem unpackBlocks_returns (index : DentIndex p.root) {ino : BitVec 32}
    (blocks : ∀ leaf ∈ keyLeafs p.root UBIFS_DATA_KEY ino, leaf.hash ≠ 2^29 - 1) (filesz : Nat)
    (dataBlock : BitVec 32) (small : dataBlock.toNat < 2^29) (n : Nat) (fd : Fd) :
    ∃ fuel out, unpackBlocks p ino filesz fuel dataBlock n fd = some out := by
  induction left : 2^29 - dataBlock.toNat using Nat.strong_induction_on generalizing dataBlock n fd with
  | _ left ih =>
    by_cases ended : ¬ n < filesz
    · exact ⟨1, _, by simp only [unpackBlocks, if_pos ended]; rfl⟩
    rcases read : ubiAllocReadDataNode p ino dataBlock 0xffffffff with _ | ⟨dnode, blkIdx⟩
    · exact ⟨1, _, by simp only [unpackBlocks, if_neg ended, read]; rfl⟩
    cases content : ubiDataNodeDecompress p dnode UBIFS_BLOCK_SIZE with
    | none => exact ⟨1, _, by simp only [unpackBlocks, if_neg ended, read, content]; rfl⟩
    | some decompress =>
      by_cases short : decompress.length ≠ leField dnode 40 4
      · exact ⟨1, _, by simp only [unpackBlocks, if_neg ended, read, content, if_pos short]; rfl⟩
      have later : dataBlock.toNat ≤ blkIdx.toNat ∧ blkIdx.toNat + 1 < 2^29 := by
        have answered := findFrom index UBIFS_DATA_KEY ino dataBlock
        unfold ubiAllocReadDataNode at read
        simp only [Option.bind_eq_bind, Option.bind_eq_some_iff] at read
        obtain ⟨leaf, search, ch, _, node⟩ := read
        rw [search] at answered
        obtain ⟨member, ⟨least, _⟩, _⟩ := answered
        have bound : leaf.hash < 2^29 := Nat.mod_lt _ (by decide)
        have notLast := blocks leaf member
        have same : blkIdx.toNat = leaf.hash := by
          by_cases isData : chNodeType ch = UBIFS_DATA_NODE
          · rw [if_pos isData, Option.some.injEq, Prod.mk.injEq] at node
            rw [← node.2, blockMask_toNat, leaf.hash_eq]
          · rw [if_neg isData] at node
            exact absurd node (by simp)
        omega
      have next : (blkIdx + 1).toNat = blkIdx.toNat + 1 := by
        rw [BitVec.toNat_add]
        have one : (1 : BitVec 32).toNat = 1 := rfl
        omega
      obtain ⟨fuel, out, done⟩ := ih (2^29 - (blkIdx + 1).toNat) (by omega) (blkIdx + 1) (by omega)
        (blkIdx.toNat * UBIFS_BLOCK_SIZE % 2^32 + leField dnode 40 4)
        ((fd.lseek64 (blkIdx.toNat * UBIFS_BLOCK_SIZE % 2^32)).write decompress) rfl
      exact ⟨fuel + 1, out, by simp only [unpackBlocks, if_neg ended, read, content, if_neg short]; exact done⟩

theorem ubiUnpackFile_returns (index : DentIndex p.root) (ino : BitVec 32)
    (blocks : ∀ leaf ∈ keyLeafs p.root UBIFS_DATA_KEY ino, leaf.hash ≠ 2^29 - 1) :
    ∃ fuel out, ubiUnpackFile p fuel ino = some out := by
  unfold ubiUnpackFile
  cases read : ubiAllocReadInode p ino with
  | none => exact ⟨0, _, rfl⟩
  | some inode =>
    by_cases empty : leField inode 48 8 = 0
    · simp only [if_pos empty]
      exact ⟨0, _, rfl⟩
    · simp only [if_neg empty]
      exact unpackBlocks_returns index blocks _ 0 (by decide) 0 _

end Files

theorem listOps_stable (p : UbiVolume) : (listOps p).Stable := fun _ _ _ _ done => done

theorem unpackOps_stable (p : UbiVolume) : (unpackOps p).Stable := by
  intro fuel more dent ret done
  obtain ⟨inum, itype⟩ := dent
  cases itype with
  | reg =>
    simp only [unpackOps, Option.map_eq_some_iff] at done ⊢
    obtain ⟨out, unpacked, same⟩ := done
    exact ⟨out, ubiUnpackFile_more unpacked more, same⟩
  | dir => exact done
  | lnk => exact done
  | blk => exact done
  | chr => exact done
  | fifo => exact done
  | sock => exact done

/-- `ubi_list_dent` can print the entry: a file or a symlink has its inode. -/
def Listable (p : UbiVolume) (leaf : UbiLeafNode) : Prop :=
  ∃ dent, readDent p leaf = some dent ∧
    (dent.itype = .reg ∨ dent.itype = .lnk → (ubiAllocReadInode p dent.inum).isSome)

/-- `ubi_unpack_dent` can unpack the entry: it is a file, a directory or a symlink with its inode, and
the data nodes of a file come to an end without an error. -/
def Extractable (p : UbiVolume) (leaf : UbiLeafNode) : Prop :=
  ∃ dent, readDent p leaf = some dent ∧ (ubiAllocReadInode p dent.inum).isSome ∧
    (dent.itype = .dir ∨ dent.itype = .lnk ∨
      dent.itype = .reg ∧ ∃ fuel file, ubiUnpackFile p fuel dent.inum = some (file, 0))

theorem ubiListFile_success (p : UbiVolume) (ino : BitVec 32) :
    0 ≤ ubiListFile p ino ↔ (ubiAllocReadInode p ino).isSome := by
  unfold ubiListFile
  cases ubiAllocReadInode p ino <;> simp

theorem ubiListLink_success (p : UbiVolume) (ino : BitVec 32) :
    0 ≤ ubiListLink p ino ↔ (ubiAllocReadInode p ino).isSome := by
  unfold ubiListLink
  cases ubiAllocReadInode p ino <;> simp

theorem ubiUnpackLink_success (p : UbiVolume) (ino : BitVec 32) :
    0 ≤ ubiUnpackLink p ino ↔ (ubiAllocReadInode p ino).isSome := by
  unfold ubiUnpackLink
  cases ubiAllocReadInode p ino <;> simp

theorem unpackBlocks_ret {p : UbiVolume} {ino : BitVec 32} {filesz fuel : Nat} {dataBlock : BitVec 32} {n : Nat}
    {fd file : Fd} {ret : Int} (done : unpackBlocks p ino filesz fuel dataBlock n fd = some (file, ret)) :
    ret = 0 ∨ ret = -1 := by
  induction fuel generalizing dataBlock n fd with
  | zero => simp [unpackBlocks] at done
  | succ fuel ih =>
    simp only [unpackBlocks] at done
    split at done
    · exact Or.inl (Prod.mk.inj (Option.some.inj done)).2.symm
    · split at done
      · exact Or.inl (Prod.mk.inj (Option.some.inj done)).2.symm
      · split at done
        · exact Or.inr (Prod.mk.inj (Option.some.inj done)).2.symm
        · split at done
          · exact Or.inr (Prod.mk.inj (Option.some.inj done)).2.symm
          · exact ih done

theorem ubiUnpackFile_success {p : UbiVolume} {fuel : Nat} {ino : BitVec 32} {file : Fd} {ret : Int}
    (done : ubiUnpackFile p fuel ino = some (file, ret)) (success : 0 ≤ ret) :
    (ubiAllocReadInode p ino).isSome ∧ ret = 0 := by
  unfold ubiUnpackFile at done
  cases read : ubiAllocReadInode p ino with
  | none =>
    simp only [read, Option.some.injEq, Prod.mk.injEq] at done
    omega
  | some inode =>
    simp only [read] at done
    by_cases empty : leField inode 48 8 = 0
    · simp only [if_pos empty, Option.some.injEq, Prod.mk.injEq] at done
      exact ⟨rfl, done.2.symm⟩
    · rw [if_neg empty] at done
      have ended := unpackBlocks_ret done
      exact ⟨rfl, by omega⟩

theorem entryDone_list (p : UbiVolume) (leaf : UbiLeafNode) : EntryDone p (listOps p) leaf ↔ Listable p leaf := by
  unfold EntryDone Listable
  apply exists_congr
  rintro ⟨inum, itype⟩
  cases itype <;> simp [listOps, ubiListFile_success, ubiListLink_success]

theorem entryDone_unpack (p : UbiVolume) (leaf : UbiLeafNode) :
    EntryDone p (unpackOps p) leaf ↔ Extractable p leaf := by
  unfold EntryDone Extractable
  apply exists_congr
  rintro ⟨inum, itype⟩
  cases itype <;> simp [unpackOps, ubiUnpackLink_success]
  intro _
  constructor
  · rintro ⟨fuel, ret, ⟨file, done⟩, success⟩
    obtain ⟨inode, rfl⟩ := ubiUnpackFile_success done success
    exact ⟨inode, fuel, file, done⟩
  · rintro ⟨_, fuel, file, done⟩
    exact ⟨fuel, 0, ⟨file, done⟩, le_refl 0⟩

def HashesFine (leafs : List UbiLeafNode) : Prop :=
  (leafs.map UbiLeafNode.keyNat).Nodup ∧ ∀ leaf ∈ leafs, leaf.hash ≠ 2^29 - 1

theorem enumerable_iff (p : UbiVolume) (ops : DentOps) (leafs : List UbiLeafNode) :
    Enumerable p ops leafs ↔ HashesFine leafs ∧ ∀ leaf ∈ leafs, EntryDone p ops leaf := by
  unfold Enumerable HashesFine
  constructor
  · exact fun ⟨keys, fine⟩ => ⟨⟨keys, fun leaf member => (fine leaf member).2⟩, fun leaf member => (fine leaf member).1⟩
  · exact fun ⟨⟨keys, hashes⟩, entries⟩ => ⟨keys, fun leaf member => ⟨entries leaf member, hashes leaf member⟩⟩

/-- Listing and unpacking a directory tree. -/
theorem ubiDents_exact (p : UbiVolume) (index : DentIndex p.root) (leafs : List UbiLeafNode)
    (tree : DentTree p leafs) :
    (VisitsOnce (ubiList p) leafs ↔ HashesFine leafs ∧ ∀ leaf ∈ leafs, Listable p leaf) ∧
      (VisitsOnce (ubiUnpack p) leafs ↔ HashesFine leafs ∧ ∀ leaf ∈ leafs, Extractable p leaf) := by
  constructor
  · have listed := dentLoop_exact index (listOps_stable p) tree
    rw [enumerable_iff] at listed
    simp only [entryDone_list] at listed
    exact listed
  · have unpacked := dentLoop_exact index (unpackOps_stable p) tree
    rw [enumerable_iff] at unpacked
    simp only [entryDone_unpack] at unpacked
    exact unpacked

def ubifsNode (nodeType : Byte) (body : List Byte) : List Byte :=
  let rest := List.replicate 8 0#8 ++ leBytes 4 (24 + body.length) ++ [nodeType, 0#8, 0#8, 0#8] ++ body
  leBytes 4 UBIFS_NODE_MAGIC ++ leBytes 4 (ubiCrc32 rest).toNat ++ rest

def fileDent (inum : Nat) : List Byte :=
  ubifsNode 2 (List.replicate 16 0#8 ++ leBytes 8 inum ++ List.replicate 8 0#8)

def twoFiles (hash2 hash3 : BitVec 32) : UbiVolume where
  root := .mk 0 (.ofLeafs [⟨1, 0, 7, 0⟩, ⟨1, 0x40000000 ||| hash2, 8, 0⟩, ⟨1, 0x40000000 ||| hash3, 9, 0⟩,
    ⟨2, 0, 7, 0⟩, ⟨3, 0, 7, 0⟩])
  readLeb := fun lnum =>
    if lnum = 7 then some (ubifsNode 0 (List.replicate 136 0#8) ++ List.replicate 24 0xff#8)
    else if lnum = 8 then some (fileDent 2 ++ List.replicate 24 0xff#8)
    else if lnum = 9 then some (fileDent 3 ++ List.replicate 24 0xff#8)
    else none
  lzo1xDecompressSafe := fun _ _ => none

def twoLeafs (hash2 hash3 : BitVec 32) : List UbiLeafNode :=
  [⟨1, 0x40000000 ||| hash2, 8, 0⟩, ⟨1, 0x40000000 ||| hash3, 9, 0⟩]

theorem twoFiles_index {hash2 hash3 : BitVec 32}
    (sorted : KeySearch.Sorted UbiLeafNode.keyNat (twoFiles hash2 hash3).root.leafs) :
    DentIndex (twoFiles hash2 hash3).root := by
  refine ⟨⟨0, ?_⟩, ?_, ?_, sorted⟩
  · simp [twoFiles, UbiBranch.Uniform, BranchEntries.ofLeafs, BranchEntries.Uniform]
  · simp [twoFiles, UbiBranch.NonEmpty, BranchEntries.ofLeafs, BranchEntries.NonEmpty, BranchEntries.isEmpty]
  · simp [twoFiles, UbiBranch.Separated, BranchEntries.ofLeafs, BranchEntries.Separated]

theorem twoFiles_tree {hash2 hash3 : BitVec 32}
    (root : dirLeafs (twoFiles hash2 hash3).root 1 = twoLeafs hash2 hash3)
    (plain : ∀ leaf ∈ twoLeafs hash2 hash3, dirOf (twoFiles hash2 hash3) leaf = none) :
    DentTree (twoFiles hash2 hash3) (twoLeafs hash2 hash3) := by
  constructor
  · rw [root]
    exact .entry (plain _ List.mem_cons_self) (.entry (plain _ (List.mem_cons_of_mem _ List.mem_cons_self)) .nil)
  · rw [List.filterMap_eq_nil_iff.mpr plain]
    exact List.nodup_singleton 1

theorem ubiDents_exact_twoFiles : VisitsOnce (ubiList (twoFiles 5 9)) (twoLeafs 5 9) := by
  have index : DentIndex (twoFiles 5 9).root := by
    apply twoFiles_index
    simp only [twoFiles, KeySearch.Sorted, UbiBranch.leafs, BranchEntries.ofLeafs, BranchEntries.leafs]
    decide
  have tree : DentTree (twoFiles 5 9) (twoLeafs 5 9) := by
    apply twoFiles_tree
    · decide +kernel
    · decide +kernel
  apply (ubiDents_exact (twoFiles 5 9) index (twoLeafs 5 9) tree).1.mpr
  refine ⟨⟨by decide, by decide⟩, ?_⟩
  have dents : ∀ leaf ∈ twoLeafs 5 9, ∃ inum, readDent (twoFiles 5 9) leaf = some ⟨inum, .reg⟩ ∧
      (ubiAllocReadInode (twoFiles 5 9) inum).isSome := by
    intro leaf member
    simp only [twoLeafs, List.mem_cons, List.not_mem_nil, or_false] at member
    rcases member with rfl | rfl
    · exact ⟨2, by decide +kernel, by decide +kernel⟩
    · exact ⟨3, by decide +kernel, by decide +kernel⟩
  intro leaf member
  obtain ⟨inum, dent, inode⟩ := dents leaf member
  exact ⟨_, dent, fun _ => inode⟩

/-- Two entries share a hash: the listing leaves out the second. -/
theorem ubiList_sharedHash :
    DentIndex (twoFiles 5 5).root ∧ DentTree (twoFiles 5 5) (twoLeafs 5 5) ∧
      ¬ VisitsOnce (ubiList (twoFiles 5 5)) (twoLeafs 5 5) := by
  have index : DentIndex (twoFiles 5 5).root := by
    apply twoFiles_index
    simp only [twoFiles, KeySearch.Sorted, UbiBranch.leafs, BranchEntries.ofLeafs, BranchEntries.leafs]
    decide
  have tree : DentTree (twoFiles 5 5) (twoLeafs 5 5) := by
    apply twoFiles_tree
    · decide +kernel
    · decide +kernel
  refine ⟨index, tree, ?_⟩
  intro listed
  have enumerable := (dentLoop_exact index (listOps_stable (twoFiles 5 5)) tree).mp listed
  exact absurd enumerable.1 (by decide)

end ImgEditor
