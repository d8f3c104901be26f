import ImgEditor.Fs.F2fsBlocks

namespace ImgEditor

open Storage

section Blocks

variable {p : F2fsEditor}

def f2fsBlock (p : F2fsEditor) (blkno : Nat) : Option (List Byte) := f2fsReadBlocks p blkno 1 p.blockSize

theorem Fd.write_nil (fd : Fd) : fd.write [] = fd := by simp [Fd.write]

def blockCount (blockSize size : Nat) : Nat := (size + blockSize - 1) / blockSize

theorem blockCount_zero {blockSize : Nat} (positive : 0 < blockSize) : blockCount blockSize 0 = 0 :=
  Nat.div_eq_of_lt (by omega)

theorem blockCount_next {blockSize size : Nat} (positive : 0 < blockSize) (more : 0 < size) :
    blockCount blockSize size = blockCount blockSize (size - min size blockSize) + 1 := by
  unfold blockCount
  rcases Nat.lt_or_ge blockSize size with below | above
  · rw [Nat.min_eq_right (by omega), ← Nat.add_div_right _ positive]
    congr 1
    omega
  · rw [Nat.min_eq_left above, Nat.sub_self, Nat.zero_add, Nat.div_eq_of_lt (show blockSize - 1 < blockSize by omega),
      Nat.div_eq_of_lt_le (k := 1) (by omega) (by omega)]

theorem lt_blockCount {blockSize size k : Nat} (positive : 0 < blockSize) :
    k < blockCount blockSize size ↔ k * blockSize < size := by
  rw [blockCount, ← Nat.succ_le_iff, Nat.le_div_iff_mul_le positive, Nat.succ_mul]
  omega

theorem unpackRegFileBlocks_eq (size : p.blockSize = F2FS_BLKSIZE) {blocks : List Nat} (nonzero : ∀ n ∈ blocks, n ≠ 0)
    (totalSize : Nat) (fd : Fd) :
    match gather (f2fsBlock p) (blocks.take (blockCount p.blockSize totalSize)) with
    | none => (unpackRegFileBlocks p blocks totalSize fd).1 = -1
    | some bytes => unpackRegFileBlocks p blocks totalSize fd = (0, fd.write (bytes.take totalSize)) := by
  have positive : 0 < p.blockSize := by
    rw [size]
    decide
  induction blocks generalizing totalSize fd with
  | nil => simp [gather, unpackRegFileBlocks, Fd.write_nil]
  | cons blkno rest ih =>
    rw [unpackRegFileBlocks]
    by_cases done : totalSize = 0
    · simp [done, blockCount_zero positive, gather, Fd.write_nil]
    rw [if_neg done, if_neg (nonzero blkno List.mem_cons_self), blockCount_next positive (by omega), List.take_succ_cons,
      gather]
    cases read : f2fsBlock p blkno with
    | none =>
      rw [f2fsBlock] at read
      simp [read]
    | some blkbuf =>
      have length := f2fsReadBlocks_length size read
      rw [f2fsBlock] at read
      have tail := ih (fun n among => nonzero n (List.mem_cons_of_mem _ among)) (totalSize - min totalSize p.blockSize)
        (fd.write (blkbuf.take (min totalSize p.blockSize)))
      simp only [read, Option.bind_some]
      cases later : gather (f2fsBlock p) (rest.take (blockCount p.blockSize (totalSize - min totalSize p.blockSize))) with
      | none =>
        rw [later] at tail
        exact tail
      | some bytes =>
        rw [later] at tail
        simp only [Option.map_some]
        rw [tail, Fd.write_write]
        rw [List.take_append, length]
        rcases Nat.le_total totalSize p.blockSize with le | ge
        · rw [Nat.min_eq_left le, Nat.sub_self, Nat.sub_eq_zero_of_le le]
        · rw [Nat.min_eq_right ge, List.take_of_length_le (le_of_eq length),
            List.take_of_length_le (show blkbuf.length ≤ totalSize by omega)]

theorem created_write (bytes : List Byte) : (Fd.created.write bytes).file = File.ofBytes bytes := Fd.created_writeAt bytes

theorem gather_blocks (size : p.blockSize = F2FS_BLKSIZE) {blocks : List Nat} {totalSize : Nat} {bytes : List Byte}
    (read : gather (f2fsBlock p) (blocks.take (blockCount p.blockSize totalSize)) = some bytes)
    (whole : totalSize ≤ bytes.length) {k : Nat} (needed : k * p.blockSize < totalSize) :
    ∃ blkno buf, blocks[k]? = some blkno ∧ f2fsBlock p blkno = some buf ∧
      ∀ j < min p.blockSize (totalSize - k * p.blockSize), (bytes.take totalSize).getD (k * p.blockSize + j) 0#8 = buf.getD j 0#8 := by
  have positive : 0 < p.blockSize := by
    rw [size]
    decide
  obtain ⟨total, positions⟩ := gather_getElem? positive read fun n _ buf found => f2fsReadBlocks_length size found
  have inside : k < blocks.length := by
    by_contra beyond
    have few : (blocks.take (blockCount p.blockSize totalSize)).length ≤ k := by
      rw [List.length_take]
      omega
    have short := Nat.mul_le_mul_right p.blockSize few
    omega
  have among : (blocks.take (blockCount p.blockSize totalSize)).getD k 0 = blocks[k] := by
    rw [List.getD_eq_getElem?_getD, List.getElem?_take_of_lt ((lt_blockCount positive).mpr needed),
      List.getElem?_eq_getElem inside]
    rfl
  have position (j : Nat) (bound : j < p.blockSize) : (k * p.blockSize + j) / p.blockSize = k ∧
      (k * p.blockSize + j) % p.blockSize = j := by
    rw [Nat.mul_comm, Nat.mul_add_div positive, Nat.div_eq_of_lt bound, Nat.mul_add_mod, Nat.mod_eq_of_lt bound]
    exact ⟨Nat.add_zero k, rfl⟩
  have start := positions (k * p.blockSize) (by omega)
  obtain ⟨buf, found, -⟩ := start
  rw [Nat.mul_div_cancel _ positive, among] at found
  refine ⟨blocks[k], buf, List.getElem?_eq_getElem inside, found, ?_⟩
  intro j bound
  obtain ⟨part, stored, byte⟩ := positions (k * p.blockSize + j) (by omega)
  rw [(position j (by omega)).1, among, found, Option.some.injEq] at stored
  subst stored
  rw [List.getD_eq_getElem?_getD, List.getElem?_take_of_lt (by omega), byte, (position j (by omega)).2,
    List.getD_eq_getElem?_getD]

theorem unpackRegFileBlocks_iff (size : p.blockSize = F2FS_BLKSIZE) {blocks : List Nat} (nonzero : ∀ n ∈ blocks, n ≠ 0)
    (totalSize : Nat) (good : Nat → Byte → Prop) :
    (∃ fd, unpackRegFileBlocks p blocks totalSize Fd.created = (0, fd) ∧ fd.file.size = totalSize ∧
      ∀ o < totalSize, good o (fd.file.byte o)) ↔
    ∀ k, k * p.blockSize < totalSize → ∃ blkno buf, blocks[k]? = some blkno ∧ f2fsBlock p blkno = some buf ∧
      ∀ j < min p.blockSize (totalSize - k * p.blockSize), good (k * p.blockSize + j) (buf.getD j 0#8) := by
  have positive : 0 < p.blockSize := by
    rw [size]
    decide
  have run := unpackRegFileBlocks_eq size nonzero totalSize Fd.created
  constructor
  · rintro ⟨fd, returned, length, bytes⟩ k needed
    cases read : gather (f2fsBlock p) (blocks.take (blockCount p.blockSize totalSize)) with
    | none =>
      simp only [read, returned] at run
      exact absurd run (by decide)
    | some all =>
      simp only [read] at run
      obtain rfl : Fd.created.write (all.take totalSize) = fd := congrArg Prod.snd (run.symm.trans returned)
      rw [created_write, File.ofBytes_size, List.length_take] at length
      obtain ⟨blkno, buf, at_, found, same⟩ := gather_blocks size read (by omega) needed
      refine ⟨blkno, buf, at_, found, ?_⟩
      intro j bound
      have byte := bytes (k * p.blockSize + j) (by omega)
      rwa [created_write, File.ofBytes_byte, same j bound] at byte
  · intro stored
    have each : ∀ n ∈ blocks.take (blockCount p.blockSize totalSize), ∃ part, f2fsBlock p n = some part := by
      intro n among
      obtain ⟨k, at_⟩ := List.mem_iff_getElem?.mp among
      rw [List.getElem?_take, Option.ite_none_right_eq_some] at at_
      obtain ⟨blkno, buf, at', found, -⟩ := stored k ((lt_blockCount positive).mp at_.1)
      obtain rfl := Option.some.inj (at_.2.symm.trans at')
      exact ⟨buf, found⟩
    obtain ⟨all, read⟩ := gather_some each
    simp only [read] at run
    have enough : totalSize ≤ all.length := by
      rw [(gather_getElem? positive read fun n _ buf found => f2fsReadBlocks_length size found).1, List.length_take]
      by_contra short
      obtain ⟨blkno, buf, at_, -⟩ := stored _ (Nat.lt_of_not_le short)
      have inside := (List.getElem?_eq_some_iff.mp at_).1
      have needed := (lt_blockCount positive).mpr (Nat.lt_of_not_le short)
      omega
    refine ⟨_, run, ?_, ?_⟩
    · rw [created_write, File.ofBytes_size, List.length_take]
      omega
    · intro o bound
      have split := Nat.div_add_mod o p.blockSize
      have small := Nat.mod_lt o positive
      rw [Nat.mul_comm] at split
      have needed : o / p.blockSize * p.blockSize < totalSize := by omega
      obtain ⟨blkno, buf, at_, found, same⟩ := gather_blocks size read enough needed
      obtain ⟨blkno', buf', at', found', holds⟩ := stored _ needed
      obtain rfl := Option.some.inj (at_.symm.trans at')
      obtain rfl := Option.some.inj (found.symm.trans found')
      have byte := holds (o % p.blockSize) (by omega)
      rw [created_write, File.ofBytes_byte]
      rw [← same _ (by omega), split] at byte
      exact byte

end Blocks

section Files

def F2fsFileByte (p : F2fsEditor) (inode : List Byte) (o : Nat) (byte : Byte) : Prop :=
  if iInline inode &&& F2FS_DATA_EXIST ≠ 0 then byte = inode.getD (364 + o) 0#8
  else ∃ blkno, fileAddr p inode (o / p.blockSize) = some blkno ∧
    if blkno = 0 then byte = 0#8 else ∃ buf, f2fsBlock p blkno = some buf ∧ byte = buf.getD (o % p.blockSize) 0#8

def F2fsUnpacks (p : F2fsEditor) (ino : Nat) (inode : List Byte) : Prop :=
  ∃ fd, unpackRegFile p ino = some (0, fd) ∧ fd.file.size = iSize inode ∧
    ∀ o < iSize inode, F2fsFileByte p inode o (fd.file.byte o)

/-- The first non-zero addresses can be read for all blocks that the size needs, and from the first zero address of
the file on they hold zeros only, as far as the file goes. -/
def F2fsUnpackable (p : F2fsEditor) (inode : List Byte) : Prop :=
  iSize inode = 0 ∨
  (iInline inode &&& F2FS_DATA_EXIST ≠ 0 ∧ iSize inode ≤ 4 * DEF_ADDRS_PER_INODE - 4) ∨
  (iInline inode &&& F2FS_DATA_EXIST = 0 ∧ ∃ slots, fileSlots p inode = some slots ∧
    ∀ k, k * p.blockSize < iSize inode → ∃ blkno buf, (slots.filter (· ≠ 0))[k]? = some blkno ∧
      f2fsBlock p blkno = some buf ∧ ((∃ i ≤ k, slots[i]? = some 0) →
        ∀ j < min p.blockSize (iSize inode - k * p.blockSize), buf.getD j 0#8 = 0#8))

/-- The inode with a number: its own NAT entry is the first one that carries the number, and its block can be read. -/
structure F2fsInodeAt (p : F2fsEditor) (ino : Nat) (inode : List Byte) : Prop where
  own : ∃ entry, f2fsGetNatEntry p ino = some entry ∧ entry.ino = ino ∧ f2fsAllocReadBlock p entry.blockAddr = some inode
  first : ∀ nid < ino, ∀ other, f2fsGetNatEntry p nid = some other → other.ino ≠ ino

variable {p : F2fsEditor}

theorem F2fsInodeAt.read {fd : Fd} (detected : f2fsDetect fd = some p) {ino : Nat} {inode : List Byte}
    (stored : F2fsInodeAt p ino inode) : f2fsAllocReadInode p ino = some inode := by
  obtain ⟨size, natSize⟩ := f2fsDetect_blockSize detected
  obtain ⟨entry, own, named, block⟩ := stored.own
  rw [f2fsAllocReadInode, f2fsGetInodeBlock_own size natSize own named stored.first, Option.bind_eq_bind,
    Option.bind_some, block]

theorem fileByte_iff (size : p.blockSize = F2FS_BLKSIZE) {inode : List Byte}
    (blockMapped : iInline inode &&& F2FS_DATA_EXIST = 0) {slots : List Nat} (found : fileSlots p inode = some slots)
    {k j : Nat} (bound : j < p.blockSize) (byte : Byte) :
    F2fsFileByte p inode (k * p.blockSize + j) byte ↔
      if slots.getD k 0 = 0 then byte = 0#8
      else ∃ buf, f2fsBlock p (slots.getD k 0) = some buf ∧ byte = buf.getD j 0#8 := by
  have positive : 0 < p.blockSize := by omega
  rw [F2fsFileByte, if_neg (not_not.mpr blockMapped), Nat.mul_comm, Nat.mul_add_div positive, Nat.div_eq_of_lt bound,
    Nat.add_zero, Nat.mul_add_mod, Nat.mod_eq_of_lt bound, fileSlots_addr found]
  simp only [Option.some.injEq, exists_eq_left']

/-- Behind a hole, an address of the file is that of an earlier block of the list, which is behind the hole too. -/
theorem address_moved {slots : List Nat} {blockSize totalSize k : Nat} (present : slots.getD k 0 ≠ 0)
    (hole : ∃ i ≤ k, slots[i]? = some 0) (needed : k * blockSize < totalSize) :
    ∃ j, j < k ∧ (slots.filter (· ≠ 0))[j]? = some (slots.getD k 0) ∧ (∃ i ≤ j, slots[i]? = some 0) ∧
      j * blockSize < totalSize ∧ min blockSize (totalSize - j * blockSize) = blockSize := by
  have entry : slots[k]? = some (slots.getD k 0) := by
    rw [List.getD_eq_getElem?_getD] at present ⊢
    cases at_ : slots[k]? with
    | none => simp [at_] at present
    | some a => rfl
  obtain ⟨j, before, moved, earlier⟩ := compact_moved entry present hole
  have product := Nat.mul_le_mul_right blockSize (Nat.succ_le_of_lt before)
  rw [Nat.succ_mul] at product
  exact ⟨j, before, moved, earlier, by omega, by omega⟩

/-- A block list without holes shows the file at a block, or has only zeros there when the file had a hole before. -/
theorem fileBlocks_iff (size : p.blockSize = F2FS_BLKSIZE) {inode : List Byte}
    (blockMapped : iInline inode &&& F2FS_DATA_EXIST = 0) {slots : List Nat} (found : fileSlots p inode = some slots)
    (totalSize : Nat) :
    (∀ k, k * p.blockSize < totalSize → ∃ blkno buf, (slots.filter (· ≠ 0))[k]? = some blkno ∧ f2fsBlock p blkno = some buf ∧
      ∀ j < min p.blockSize (totalSize - k * p.blockSize), F2fsFileByte p inode (k * p.blockSize + j) (buf.getD j 0#8)) ↔
    ∀ k, k * p.blockSize < totalSize → ∃ blkno buf, (slots.filter (· ≠ 0))[k]? = some blkno ∧ f2fsBlock p blkno = some buf ∧
      ((∃ i ≤ k, slots[i]? = some 0) → ∀ j < min p.blockSize (totalSize - k * p.blockSize), buf.getD j 0#8 = 0#8) := by
  constructor
  · intro shown k
    induction k using Nat.strong_induction_on with
    | _ k ih =>
      intro needed
      obtain ⟨blkno, buf, at_, read, bytes⟩ := shown k needed
      refine ⟨blkno, buf, at_, read, ?_⟩
      intro hole j bound
      have byte := (fileByte_iff size blockMapped found (by omega) _).mp (bytes j bound)
      split at byte
      · exact byte
      · next present =>
        obtain ⟨j', before, moved, earlier, needed', full⟩ := address_moved present hole needed
        obtain ⟨blkno', buf', at', read', zeros⟩ := ih j' before needed'
        obtain rfl := Option.some.inj (at'.symm.trans moved)
        obtain ⟨buf'', read'', same⟩ := byte
        obtain rfl := Option.some.inj (read'.symm.trans read'')
        rw [same]
        exact zeros earlier j (by omega)
  · intro stored k needed
    obtain ⟨blkno, buf, at_, read, zeros⟩ := stored k needed
    refine ⟨blkno, buf, at_, read, ?_⟩
    intro j bound
    rw [fileByte_iff size blockMapped found (by omega)]
    by_cases hole : ∃ i ≤ k, slots[i]? = some 0
    · rw [zeros hole j bound]
      split
      · rfl
      · next present =>
        obtain ⟨j', before, moved, earlier, needed', full⟩ := address_moved present hole needed
        obtain ⟨blkno', buf', at', read', zeros'⟩ := stored j' needed'
        obtain rfl := Option.some.inj (at'.symm.trans moved)
        exact ⟨buf', read', (zeros' earlier j (by omega)).symm⟩
    · have solid : ∀ i ≤ k, slots[i]? ≠ some 0 := fun i le zero => hole ⟨i, le, zero⟩
      have inside : k < slots.length :=
        (List.getElem?_eq_some_iff.mp at_).1.trans_le (List.length_filter_le _ _)
      rw [compact_front solid inside] at at_
      have address : slots.getD k 0 = blkno := by
        rw [List.getD_eq_getElem?_getD, at_]
        rfl
      have nonzero : blkno ≠ 0 := fun zero => solid k (le_refl k) (by rw [at_, zero])
      rw [address, if_neg nonzero]
      exact ⟨buf, read, rfl⟩

theorem unpackRegFile_mapped {ino : Nat} {inode : List Byte} (read : f2fsAllocReadInode p ino = some inode)
    (nonempty : iSize inode ≠ 0) (mapped : iInline inode &&& F2FS_DATA_EXIST = 0) :
    unpackRegFile p ino = match fileSlots p inode with
      | none => some (-1, Fd.created)
      | some slots => some (unpackRegFileBlocks p (slots.filter (· ≠ 0)) (iSize inode) Fd.created) := by
  rw [unpackRegFile, read]
  simp only [Option.bind_eq_bind, Option.bind_some]
  rw [if_neg nonempty, if_neg (not_not.mpr mapped), f2fsInodeBlocksRead_eq]
  cases fileSlots p inode with
  | none => rfl
  | some slots => rfl

theorem filter_nonzero {list : List Nat} : ∀ n ∈ list.filter (· ≠ 0), n ≠ 0 := fun n among => by
  simpa using (List.mem_filter.mp among).2

theorem hole_lost (size : p.blockSize = F2FS_BLKSIZE) {ino : Nat} {inode : List Byte}
    (read : f2fsAllocReadInode p ino = some inode) (nonempty : iSize inode ≠ 0)
    (mapped : iInline inode &&& F2FS_DATA_EXIST = 0) {blkno : Nat} {rest : List Nat}
    (found : fileSlots p inode = some (0 :: blkno :: rest)) (present : blkno ≠ 0) {buf : List Byte}
    (block : f2fsBlock p blkno = some buf) (other : buf.getD 0 0#8 ≠ 0#8) : ¬ F2fsUnpacks p ino inode := by
  rintro ⟨fd, returned, written⟩
  rw [unpackRegFile_mapped read nonempty mapped, found] at returned
  have blocks := (unpackRegFileBlocks_iff size filter_nonzero _ _).mp ⟨fd, Option.some.inj returned, written⟩
  obtain ⟨blkno', buf', at_, read', bytes⟩ := blocks 0 (by omega)
  have first : ((0 :: blkno :: rest).filter (· ≠ 0))[0]? = some blkno := by simp [present]
  obtain rfl := Option.some.inj (first.symm.trans at_)
  obtain rfl := Option.some.inj (block.symm.trans read')
  have positive : 0 < p.blockSize := by
    rw [size]
    decide
  have byte := (fileByte_iff size mapped found positive _).mp (bytes 0 (by omega))
  have hole : (0 :: blkno :: rest).getD 0 0 = 0 := rfl
  rw [if_pos hole] at byte
  exact other byte

end Files

/-! An image with two regular files: inode 4 of two blocks, the first of them a hole, and inode 5 of 100 bytes. -/

def twoFilesF2fs : Fd :=
  let super := [(0, leBytes 4 F2FS_SUPER_MAGIC), (8, leBytes 4 9), (12, leBytes 4 3), (16, leBytes 4 12), (60, leBytes 4 1),
    (76, leBytes 4 1), (84, leBytes 4 2)]
  let file := super.foldl (fun file write => file.writeAt (F2FS_SUPER_OFFSET + write.1) write.2) File.empty
  let file := file.writeAt (2 * 4096 + 9 * 4) ([0] ++ leBytes 4 4 ++ leBytes 4 3)
  let file := file.writeAt (2 * 4096 + 9 * 5) ([0] ++ leBytes 4 5 ++ leBytes 4 4)
  let file := (file.writeAt (3 * 4096 + 16) (leBytes 8 8192)).writeAt (3 * 4096 + 364) (leBytes 4 5)
  let file := (file.writeAt (4 * 4096 + 16) (leBytes 8 100)).writeAt (4 * 4096 + 360) (leBytes 4 5)
  ⟨(file.writeAt (5 * 4096) [1]).writeAt (6 * 4096 - 1) [2], 0, 0⟩

theorem twoFilesF2fs_accepted : (f2fsDetect twoFilesF2fs).isSome := by decide +kernel

def twoFilesEditor : F2fsEditor := (f2fsDetect twoFilesF2fs).get twoFilesF2fs_accepted

theorem twoFilesEditor_detected : f2fsDetect twoFilesF2fs = some twoFilesEditor := (Option.some_get _).symm

def twoFilesField (blkno offset width : Nat) : Nat := leNumber (twoFilesF2fs.file.slice (blkno * F2FS_BLKSIZE + offset) width)

/-- The node addresses, and of both inodes the inline flags, the size, two block addresses and the indirect ones. -/
theorem twoFilesF2fs_stored :
    (f2fsGetNatEntry twoFilesEditor 4 = some ⟨4, 3⟩ ∧ f2fsGetNatEntry twoFilesEditor 5 = some ⟨5, 4⟩ ∧
      ∀ nid < 4, (f2fsGetNatEntry twoFilesEditor nid).all (fun entry => decide (entry.ino = 0))) ∧
    (twoFilesF2fs.file.size = 6 * F2FS_BLKSIZE ∧ twoFilesF2fs.file.byte (5 * F2FS_BLKSIZE) = 1#8) ∧
    (twoFilesField 3 16 8 = 8192 ∧ twoFilesField 4 16 8 = 100 ∧ twoFilesField 3 3 1 = 0 ∧ twoFilesField 4 3 1 = 0) ∧
    (twoFilesField 3 360 4 = 0 ∧ twoFilesField 3 364 4 = 5 ∧ twoFilesField 4 360 4 = 5) ∧
    ∀ blkno ∈ [3, 4], ∀ i < 5, twoFilesField blkno (4052 + 4 * i) 4 = 0 := by decide +kernel

theorem twoFilesEditor_entries :
    f2fsGetNatEntry twoFilesEditor 4 = some ⟨4, 3⟩ ∧ f2fsGetNatEntry twoFilesEditor 5 = some ⟨5, 4⟩ ∧
      ∀ nid < 4, (f2fsGetNatEntry twoFilesEditor nid).all (fun entry => decide (entry.ino = 0)) := twoFilesF2fs_stored.1

def twoFilesBlock (blkno : Nat) : List Byte := twoFilesF2fs.file.slice (blkno * F2FS_BLKSIZE) F2FS_BLKSIZE

theorem twoFilesEditor_block {blkno : Nat} (inside : blkno < 6) :
    f2fsBlock twoFilesEditor blkno = some (twoFilesBlock blkno) ∧
      f2fsAllocReadBlock twoFilesEditor blkno = some (twoFilesBlock blkno) := by
  obtain ⟨size, -⟩ := f2fsDetect_blockSize twoFilesEditor_detected
  have length : twoFilesEditor.fd.file.size = 6 * F2FS_BLKSIZE := by
    rw [f2fsDetect_fd twoFilesEditor_detected]
    exact twoFilesF2fs_stored.2.1.1
  have start : twoFilesEditor.fd.start = 0 := by
    rw [f2fsDetect_fd twoFilesEditor_detected]
    rfl
  have read := @f2fsReadBlocks_inside _ size blkno
    (by rw [length]; decide) (by rw [length, start]; simp only [F2FS_BLKSIZE]; omega)
  rw [start, Nat.zero_add, f2fsDetect_fd twoFilesEditor_detected] at read
  rw [f2fsBlock, f2fsAllocReadBlock_eq size, size]
  exact ⟨read, read⟩

theorem twoFiles_field {blkno offset width : Nat} (inside : offset + width ≤ F2FS_BLKSIZE) :
    leField (twoFilesBlock blkno) offset width = twoFilesField blkno offset width := by
  rw [twoFilesField, leField, twoFilesBlock, File.slice_drop _ _ _ _ (by omega), File.slice_take _ _ _ _ (by omega)]

theorem twoFiles_inode {ino blkno : Nat} (named : ino = 4 ∧ blkno = 3 ∨ ino = 5 ∧ blkno = 4) :
    F2fsInodeAt twoFilesEditor ino (twoFilesBlock blkno) := by
  obtain ⟨four, five, before⟩ := twoFilesEditor_entries
  have earlier (nid : Nat) (below : nid < 4) (other : F2fsNatEntry) (stored : f2fsGetNatEntry twoFilesEditor nid = some other) :
      other.ino = 0 := by
    have all := before nid below
    rw [stored] at all
    simpa using all
  rcases named with ⟨rfl, rfl⟩ | ⟨rfl, rfl⟩
  · refine ⟨⟨_, four, rfl, (twoFilesEditor_block (by decide)).2⟩, ?_⟩
    intro nid below other stored
    rw [earlier nid below other stored]
    decide
  · refine ⟨⟨_, five, rfl, (twoFilesEditor_block (by decide)).2⟩, ?_⟩
    intro nid below other stored
    rcases Nat.lt_or_eq_of_le (Nat.le_of_lt_succ below) with less | rfl
    · rw [earlier nid less other stored]
      decide
    · obtain rfl := Option.some.inj (four.symm.trans stored)
      decide

theorem twoFiles_sizes : iSize (twoFilesBlock 3) = 8192 ∧ iSize (twoFilesBlock 4) = 100 ∧
    iInline (twoFilesBlock 3) = 0 ∧ iInline (twoFilesBlock 4) = 0 := by
  simp only [iSize, iInline, twoFiles_field (show 16 + 8 ≤ F2FS_BLKSIZE by decide),
    twoFiles_field (show 3 + 1 ≤ F2FS_BLKSIZE by decide)]
  exact twoFilesF2fs_stored.2.2.1

theorem twoFiles_addrs : iAddr (twoFilesBlock 3) 0 = 0 ∧ iAddr (twoFilesBlock 3) 1 = 5 ∧ iAddr (twoFilesBlock 4) 0 = 5 := by
  simp only [iAddr, twoFiles_field (show 360 + 4 * 0 + 4 ≤ F2FS_BLKSIZE by decide),
    twoFiles_field (show 360 + 4 * 1 + 4 ≤ F2FS_BLKSIZE by decide)]
  exact twoFilesF2fs_stored.2.2.2.1

theorem twoFiles_nids (blkno : Nat) (named : blkno = 3 ∨ blkno = 4) :
    ∀ i < DEF_NIDS_PER_INODE, iNid (twoFilesBlock blkno) i = 0 := by
  intro i inside
  have bound : i < 5 := inside
  rw [iNid, twoFiles_field (by simp only [F2FS_BLKSIZE]; omega)]
  exact twoFilesF2fs_stored.2.2.2.2 blkno (List.mem_pair.mpr named) i bound

theorem twoFiles_slots (blkno : Nat) (named : blkno = 3 ∨ blkno = 4) :
    ∃ rest, fileSlots twoFilesEditor (twoFilesBlock blkno) =
      some (iAddr (twoFilesBlock blkno) 0 :: iAddr (twoFilesBlock blkno) 1 :: rest) := by
  obtain ⟨holes, found, -⟩ := fileSlots_flat twoFilesEditor (twoFiles_nids blkno named)
  rw [DEF_ADDRS_PER_INODE, List.range_eq_range', List.range'_succ, List.range'_succ] at found
  exact ⟨_, found⟩

end ImgEditor
