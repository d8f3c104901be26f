import ImgEditor.Fs.Ext2AllocFile

namespace ImgEditor

open Storage

/-- `struct dirent_iterator` without its current entry; a `NULL` is an empty file. -/
structure DirentIterator where
  inode : List Byte
  parent : File
  direntSize : Nat

/-- `ext2_read_blocks` into a buffer. What was read is stored also when it is too short. -/
def ext2ReadBlocksInto (p : Ext2Editor) (blkno nblks pos bufsz : Nat) (buf : File) : Ext2M File := do
  let sz := min (p.blockSize * nblks % 2^32) bufsz
  let bytes := ((p.fd.fileseek (blkno * p.blockSize % 2^64)).read sz).1
  let buf ← storeBytes buf pos bytes
  refuseIf .error (bytes.length = 0 ∨ bytes.length ≠ sz)
  return buf

/-- A block that cannot be read leaves the iterator without entries, and is not reported. -/
def direntIteratorInitDirBlocks (p : Ext2Editor) (inode : List Byte) : Ext2M DirentIterator := do
  let b ← found .error (ext2InodeBlocksRead p inode ⟨[], none⟩)
  refuseIf .error (b.blocks.length = 0)
  match gather (fun blkno => ext2ReadBlocks p blkno 1 p.blockSize) b.blocks with
  | none => return ⟨inode, File.empty, 0⟩
  | some bytes => return ⟨inode, File.ofBytes bytes, b.blocks.length * p.blockSize % 2^32⟩

/-- The second loop of `dirent_iterator_init`; `le16_to_cpu` takes the lower half of `ee_block`. -/
def direntLoadExtents (p : Ext2Editor) : List Ext4Extent → File → Ext2M File
  | [], parent => return parent
  | ee :: rest, parent => do
    let parent ← ext2ReadBlocksInto p (ext4ExtentStartBlock ee) ee.eeLen (ee.eeBlock % 2^16 * p.blockSize % 2^32)
      (ee.eeLen * p.blockSize % 2^32) parent
    direntLoadExtents p rest parent

def direntIteratorInit (junk : Nat → Memory) (p : Ext2Editor) (ino : Nat) : Ext2M DirentIterator := do
  let inode ← found .error (ext2ReadInode p ino)
  refuseIf .error (inodeMode inode &&& INODE_MODE_S_IFDIR = 0)
  if inodeFlags inode &&& EXT4_EXTENTS_FL = 0 then direntIteratorInitDirBlocks p inode
  else
    match extentIteratorInit p junk 6 ino none with
    | .error _ => throw .error
    | .ok eit =>
      let extents := eit.parent.getD []
      let totalEeLen := extents.foldl (fun total ee => (total + ee.eeLen) % 2^32) 0
      let direntSize := totalEeLen * p.blockSize % 2^32
      let parent ← direntLoadExtents p extents (callocFile direntSize)
      return ⟨inode, parent, direntSize⟩

/-! ## Extents that follow each other -/

def extentsTotal (extents : List Ext4Extent) : Nat := (extents.map extentBlocks).sum

def Follow : Nat → List Ext4Extent → Prop
  | _, [] => True
  | start, ee :: rest => ee.eeBlock = start ∧ Follow (start + extentBlocks ee) rest

section Follow

variable {extents : List Ext4Extent}

theorem extentsTotal_cons (ee : Ext4Extent) (rest : List Ext4Extent) :
    extentsTotal (ee :: rest) = extentBlocks ee + extentsTotal rest := rfl

theorem extentsTotal_le (apart : extents.Pairwise fun ee next => ee.eeBlock + extentBlocks ee ≤ next.eeBlock) {start : Nat}
    (behind : ∀ ee ∈ extents, start ≤ ee.eeBlock) (some : extents ≠ []) :
    ∃ ee ∈ extents, start + extentsTotal extents ≤ ee.eeBlock + extentBlocks ee := by
  induction extents generalizing start with
  | nil => exact absurd rfl some
  | cons ee rest ih =>
    rcases List.pairwise_cons.mp apart with ⟨next, later⟩
    have first := behind ee List.mem_cons_self
    rw [extentsTotal_cons]
    by_cases last : rest = []
    · refine ⟨ee, List.mem_cons_self, ?_⟩
      rw [last]
      change start + (extentBlocks ee + 0) ≤ _
      omega
    · rcases ih later next last with ⟨other, member, bound⟩
      exact ⟨other, List.mem_cons_of_mem _ member, by omega⟩

/-- No extent ends behind the sum of the lengths exactly when there is no hole between them. -/
theorem follow_iff (apart : extents.Pairwise fun ee next => ee.eeBlock + extentBlocks ee ≤ next.eeBlock) {start : Nat}
    (behind : ∀ ee ∈ extents, start ≤ ee.eeBlock) :
    Follow start extents ↔ ∀ ee ∈ extents, ee.eeBlock + extentBlocks ee ≤ start + extentsTotal extents := by
  induction extents generalizing start with
  | nil => exact iff_of_true trivial nofun
  | cons ee rest ih =>
    rcases List.pairwise_cons.mp apart with ⟨next, later⟩
    have first := behind ee List.mem_cons_self
    rw [extentsTotal_cons, List.forall_mem_cons]
    constructor
    · rintro ⟨rfl, follow⟩
      have bounds := (ih later fun other member => next other member).mp follow
      refine ⟨by omega, ?_⟩
      intro other member
      have bound := bounds other member
      omega
    · rintro ⟨own, bounds⟩
      have here : ee.eeBlock = start := by
        by_cases last : rest = []
        · rw [last] at own
          change _ ≤ start + (extentBlocks ee + 0) at own
          omega
        · rcases extentsTotal_le later next last with ⟨other, member, low⟩
          have high := bounds other member
          omega
      rw [here] at next
      refine ⟨here, (ih later next).mpr ?_⟩
      intro other member
      have bound := bounds other member
      omega

end Follow

/-! ## The loop that loads the extents -/

theorem storeBytes_ok_iff {buf stored : File} {pos : Nat} {bytes : List Byte} :
    storeBytes buf pos bytes = .ok stored ↔ (bytes = [] ∨ pos + bytes.length ≤ buf.size) ∧ stored = buf.writeAt pos bytes := by
  unfold storeBytes
  by_cases outside : bytes ≠ [] ∧ buf.size < pos + bytes.length
  · rw [if_pos outside]
    refine iff_of_false nofun ?_
    rintro ⟨none | inside, -⟩
    · exact outside.1 none
    · omega
  · rw [if_neg outside]
    refine ⟨fun same => ⟨?_, (Except.ok.inj same).symm⟩, fun both => congrArg Except.ok both.2.symm⟩
    by_cases none : bytes = []
    · exact .inl none
    · exact .inr (Nat.not_lt.mp fun less => outside ⟨none, less⟩)

section Load

variable {p : Ext2Editor} (small : p.blockSize ≤ 65536) (offsets : p.fd.file.size < 2^63)

include small offsets

/-- A block run that is read at once, to its end, and stored inside of the buffer. -/
theorem ext2ReadBlocksInto_ok_iff {ee : Ext4Extent} (some : 0 < extentBlocks ee) (written : ee.eeLen ≤ 32768)
    (low : ee.eeBlock < 2^16) (positive : 0 < p.blockSize)
    (inside : p.fd.start + (ext4ExtentStartBlock ee + extentBlocks ee) * p.blockSize ≤ p.fd.file.size) {buf stored : File} :
    ext2ReadBlocksInto p (ext4ExtentStartBlock ee) ee.eeLen (ee.eeBlock % 2^16 * p.blockSize % 2^32)
        (ee.eeLen * p.blockSize % 2^32) buf = .ok stored ↔
      extentBlocks ee * p.blockSize ≤ 0x7ffff000 ∧ (extentCopy p ee).stop ≤ buf.size ∧
        stored = Copy.copyTo p.fd.file buf (extentCopy p ee) := by
  rw [extentBlocks_written written] at some inside ⊢
  have count := Nat.mul_le_mul written small
  have bytes : min (p.blockSize * ee.eeLen % 2^32) (ee.eeLen * p.blockSize % 2^32) = ee.eeLen * p.blockSize := by
    rw [Nat.mul_comm p.blockSize, Nat.min_self, Nat.mod_eq_of_lt (by omega)]
  have position : ee.eeBlock % 2^16 * p.blockSize % 2^32 = ee.eeBlock * p.blockSize := by
    have product := Nat.mul_le_mul (Nat.le_of_lt_succ low) small
    rw [Nat.mod_eq_of_lt low, Nat.mod_eq_of_lt (by omega)]
  rw [Nat.add_mul] at inside
  have seek : ext4ExtentStartBlock ee * p.blockSize % 2^64 = ext4ExtentStartBlock ee * p.blockSize :=
    Nat.mod_eq_of_lt (by omega)
  have length := p.fd.file.readAt_length (p.fd.start + ext4ExtentStartBlock ee * p.blockSize)
    (min (ee.eeLen * p.blockSize) 0x7ffff000)
  have nonempty := Nat.mul_pos some positive
  unfold ext2ReadBlocksInto
  simp only [bytes, position, seek, Fd.read, Fd.fileseek_file, Fd.fileseek_pos _ _ (show p.fd.start + ext4ExtentStartBlock ee *
    p.blockSize < 2 ^ 63 by omega), bind_ok_iff, storeBytes_ok_iff, refuseIf_ok_iff]
  constructor
  · rintro ⟨_, ⟨room, rfl⟩, _, read, same⟩
    obtain rfl := Except.ok.inj same
    have once : ee.eeLen * p.blockSize ≤ 0x7ffff000 := by omega
    rw [Nat.min_eq_left once] at room length read ⊢
    refine ⟨once, ?_, rfl⟩
    rcases room with none | fits
    · rw [none, List.length_nil] at length
      omega
    · dsimp only [Copy.stop, extentCopy]
      omega
  · rintro ⟨once, fits, rfl⟩
    rw [Nat.min_eq_left once] at length ⊢
    dsimp only [Copy.stop, extentCopy] at fits
    exact ⟨_, ⟨.inr (by omega), rfl⟩, (), by omega, rfl⟩

theorem direntLoadExtents_ok_iff (positive : 0 < p.blockSize) {extents : List Ext4Extent}
    (nonempty : ∀ ee ∈ extents, 0 < extentBlocks ee) (written : ∀ ee ∈ extents, ee.eeLen ≤ 32768)
    (low : ∀ ee ∈ extents, ee.eeBlock < 2^16)
    (stored : ∀ ee ∈ extents,
      p.fd.start + (ext4ExtentStartBlock ee + extentBlocks ee) * p.blockSize ≤ p.fd.file.size) {buf parent : File} :
    direntLoadExtents p extents buf = .ok parent ↔
      (∀ ee ∈ extents, extentBlocks ee * p.blockSize ≤ 0x7ffff000 ∧ (extentCopy p ee).stop ≤ buf.size) ∧
        parent = Copy.copyAll p.fd.file (extents.map (extentCopy p)) buf := by
  induction extents generalizing buf with
  | nil => exact ⟨fun same => ⟨nofun, (Except.ok.inj same).symm⟩, fun both => congrArg Except.ok both.2.symm⟩
  | cons ee rest ih =>
    rw [List.forall_mem_cons] at nonempty written low stored
    rw [List.forall_mem_cons]
    have first (mid : File) := @ext2ReadBlocksInto_ok_iff p small offsets ee nonempty.1 written.1 low.1 positive stored.1 buf mid
    rw [direntLoadExtents, bind_ok_iff]
    simp only [first]
    have size (fits : (extentCopy p ee).stop ≤ buf.size) : (Copy.copyTo p.fd.file buf (extentCopy p ee)).size = buf.size := by
      apply writeAt_size_inside
      have length := p.fd.file.readAt_length (extentCopy p ee).place (extentCopy p ee).len
      unfold Copy.stop at fits
      exact .inr (by omega)
    constructor
    · rintro ⟨_, ⟨once, fits, rfl⟩, loaded⟩
      rcases (ih nonempty.2 written.2 low.2 stored.2).mp loaded with ⟨later, same⟩
      rw [size fits] at later
      exact ⟨⟨⟨once, fits⟩, later⟩, same⟩
    · rintro ⟨⟨⟨once, fits⟩, later⟩, same⟩
      refine ⟨_, ⟨once, fits, rfl⟩, (ih nonempty.2 written.2 low.2 stored.2).mpr ⟨?_, same⟩⟩
      rw [size fits]
      exact later

end Load

theorem totalEeLen_eq (extents : List Ext4Extent) (total : Nat) :
    extents.foldl (fun total ee => (total + ee.eeLen) % 2^32) total % 2^32 = (total + (extents.map (·.eeLen)).sum) % 2^32 := by
  induction extents generalizing total with
  | nil => rfl
  | cons ee rest ih =>
    rw [List.foldl_cons, ih, List.map_cons, List.sum_cons, Nat.mod_add_mod, Nat.add_assoc]

theorem extentCopy_stop (p : Ext2Editor) {ee : Ext4Extent} (written : ee.eeLen ≤ 32768) :
    (extentCopy p ee).stop = (ee.eeBlock + extentBlocks ee) * p.blockSize := by
  rw [extentBlocks_written written, Nat.add_mul]
  rfl

theorem extentCopy_readable {p : Ext2Editor} {ee : Ext4Extent} (written : ee.eeLen ≤ 32768)
    (stored : p.fd.start + (ext4ExtentStartBlock ee + extentBlocks ee) * p.blockSize ≤ p.fd.file.size)
    (once : extentBlocks ee * p.blockSize ≤ 0x7ffff000) : CopyReadable p.fd.file (extentCopy p ee) := by
  rw [extentBlocks_written written] at stored once
  rw [Nat.add_mul, ← Nat.add_assoc] at stored
  exact ⟨once, stored⟩

section Inode

variable {p : Ext2Editor} {ino depth : Nat} {inode : List Byte} {tree : ExtentTree depth}
  (read : ext2ReadInode p ino = some inode) (valid : ValidExtentTree p inode depth tree)

include read valid

theorem direntIteratorInit_eq (directory : inodeMode inode &&& INODE_MODE_S_IFDIR ≠ 0)
    (written : ∀ ee ∈ tree.leaves depth, ee.eeLen ≤ 32768) (junk : Nat → Memory) :
    direntIteratorInit junk p ino = do
      let parent ← direntLoadExtents p (tree.leaves depth)
        (callocFile (extentsTotal (tree.leaves depth) * p.blockSize % 2^32))
      return ⟨inode, parent, extentsTotal (tree.leaves depth) * p.blockSize % 2^32⟩ := by
  rcases valid.iterator read junk none with ⟨it, iterated, extents⟩
  have flag : ¬ inodeFlags inode &&& EXT4_EXTENTS_FL = 0 := valid.flag
  have kind : refuseIf Ext2Fail.error (inodeMode inode &&& INODE_MODE_S_IFDIR = 0) = .ok () := if_neg directory
  have lengths : (tree.leaves depth).map (·.eeLen) = (tree.leaves depth).map extentBlocks :=
    List.map_congr_left fun ee member => (extentBlocks_written (written ee member)).symm
  have total : (tree.leaves depth).foldl (fun total ee => (total + ee.eeLen) % 2^32) 0 * p.blockSize % 2^32 =
      extentsTotal (tree.leaves depth) * p.blockSize % 2^32 := by
    rw [← Nat.mod_mul_mod, totalEeLen_eq, Nat.zero_add, Nat.mod_mul_mod, lengths]
    rfl
  rw [direntIteratorInit, read, found, pure_bind]
  dsimp only
  rw [kind, if_neg flag, iterated, ← total, ← extents]
  rfl

end Inode

def DirentRight (junk : Nat → Memory) (p : Ext2Editor) (ino : Nat) (extents : List Ext4Extent) : Prop :=
  ∃ it, direntIteratorInit junk p ino = .ok it ∧ it.direntSize = it.parent.size ∧
    (∀ ee ∈ extents, (ee.eeBlock + extentBlocks ee) * p.blockSize ≤ it.parent.size) ∧
      ∀ o < it.parent.size, Ext4FileByte p extents o (it.parent.byte o)

/-- The extents have no hole between them, make up less than 4 GiB and are read with one read(2) each. -/
structure DirentFits (p : Ext2Editor) (extents : List Ext4Extent) : Prop where
  follow : Follow 0 extents
  size : extentsTotal extents * p.blockSize < 2^32
  once : ∀ ee ∈ extents, extentBlocks ee * p.blockSize ≤ 0x7ffff000

theorem direntIteratorInit_right_iff {p : Ext2Editor} {ino depth : Nat} {inode : List Byte} {tree : ExtentTree depth}
    (read : ext2ReadInode p ino = some inode) (valid : ValidExtentTree p inode depth tree)
    (directory : inodeMode inode &&& INODE_MODE_S_IFDIR ≠ 0) (written : ∀ ee ∈ tree.leaves depth, ee.eeLen ≤ 32768)
    (low : ∀ ee ∈ tree.leaves depth, ee.eeBlock < 2^16) (junk : Nat → Memory) :
    DirentRight junk p ino (tree.leaves depth) ↔ DirentFits p (tree.leaves depth) := by
  have positive : 0 < p.blockSize := by
    have sizes := valid.blockSize
    omega
  have extents := valid.extents
  have loaded (buf parent : File) := @direntLoadExtents_ok_iff p valid.blockSize.2 valid.offsets positive (tree.leaves depth)
    extents.nonempty written low extents.stored buf parent
  have follow := @follow_iff _ extents.apart 0 fun _ _ => Nat.zero_le _
  have readable := fun (ee : Ext4Extent) (member : ee ∈ tree.leaves depth) =>
    extentCopy_readable (written ee member) (extents.stored ee member)
  have stop := fun (ee : Ext4Extent) (member : ee ∈ tree.leaves depth) => extentCopy_stop p (written ee member)
  unfold DirentRight
  simp only [direntIteratorInit_eq read valid directory written junk, bind_ok_iff, loaded]
  clear loaded low read valid directory
  generalize tree.leaves depth = list at *
  constructor
  · rintro ⟨it, ⟨parent, ⟨fits, rfl⟩, same⟩, -⟩
    have ends : ∀ ee ∈ list, (ee.eeBlock + extentBlocks ee) * p.blockSize ≤ extentsTotal list * p.blockSize % 2^32 := by
      intro ee member
      rw [← stop ee member]
      exact (fits ee member).2
    refine ⟨follow.mpr ?_, ?_, fun ee member => (fits ee member).1⟩
    · intro ee member
      rw [Nat.zero_add]
      exact Nat.le_of_mul_le_mul_right ((ends ee member).trans (Nat.mod_le _ _)) positive
    · by_cases none : list = []
      · rw [none]
        change 0 * p.blockSize < 2^32
        omega
      · rcases extentsTotal_le extents.apart (fun ee _ => Nat.zero_le ee.eeBlock) none with ⟨ee, member, last⟩
        rw [Nat.zero_add] at last
        have product := Nat.mul_le_mul_right p.blockSize last
        have bound := ends ee member
        omega
  · rintro ⟨chain, size, once⟩
    have ends : ∀ ee ∈ list, (extentCopy p ee).stop ≤ extentsTotal list * p.blockSize := by
      intro ee member
      have bound := follow.mp chain ee member
      rw [Nat.zero_add] at bound
      rw [stop ee member]
      exact Nat.mul_le_mul_right _ bound
    rw [Nat.mod_eq_of_lt size]
    have stopped : ∀ c ∈ list.map (extentCopy p), c.stop ≤ extentsTotal list * p.blockSize := List.forall_mem_map.mpr ends
    have kept := (@readCopies_fits p.fd.file (list.map (extentCopy p)) (callocFile (extentsTotal list * p.blockSize))
      (List.forall_mem_map.mpr fun ee member => .inr ⟨readable ee member (once ee member), ends ee member⟩)).2
    have plain : ∀ ee ∈ list, ee.eeBlock * p.blockSize < extentsTotal list * p.blockSize → ee.eeLen ≤ 32768 :=
      fun ee member _ => written ee member
    have ordered := @extentCopies_ordered p _ list positive extents plain 0 fun _ _ => Nat.zero_le _
    refine ⟨_, ⟨_, ⟨fun ee member => ⟨once ee member, ends ee member⟩, rfl⟩, rfl⟩, kept.symm, ?_, ?_⟩
    · intro ee member
      rw [← stop ee member]
      exact (ends ee member).trans kept.ge
    · intro o below
      have inside : o < extentsTotal list * p.blockSize := below.trans_eq kept
      rw [← Copy.clip_within ordered (Nat.le_of_eq (Nat.zero_add _).symm) stopped]
      exact extentCopies_bytes positive extents plain inside rfl

theorem direntIteratorInit_right_iff_twoBlocks :
    DirentRight (fun _ _ => 0#8) (extentEditor 0x41ed 2048 1) 2 ((twoExtents 1).leaves 0) := by
  have read := @twoExtents_read 0x41ed 2048 1 (by decide)
  have valid := @twoExtents_valid 0x41ed 2048 1 (by decide)
  have directory : inodeMode (extentInode 0x41ed 2048 1) &&& INODE_MODE_S_IFDIR ≠ 0 := by decide +kernel
  refine (direntIteratorInit_right_iff read valid directory ?_ ?_ _).mpr ⟨?_, ?_, ?_⟩
  · exact twoExtents_all (by decide) (by decide)
  · exact twoExtents_all (by decide) (by decide)
  · exact ⟨rfl, rfl, trivial⟩
  · decide
  · exact twoExtents_all (by decide) (by decide)

/-- With a hole at block 1 the second extent is stored behind the buffer of two blocks. -/
theorem direntIteratorInit_outside : ValidExtentTree (extentEditor 0x41ed 3072 2) (extentInode 0x41ed 3072 2) 0 (twoExtents 2) ∧
    ext2ReadInode (extentEditor 0x41ed 3072 2) 2 = some (extentInode 0x41ed 3072 2) ∧
      inodeMode (extentInode 0x41ed 3072 2) &&& INODE_MODE_S_IFDIR ≠ 0 ∧
        ¬ DirentRight (fun _ _ => 0#8) (extentEditor 0x41ed 3072 2) 2 ((twoExtents 2).leaves 0) := by
  have read := @twoExtents_read 0x41ed 3072 2 (by decide)
  have valid := @twoExtents_valid 0x41ed 3072 2 (by decide)
  refine ⟨valid, read, by decide +kernel, ?_⟩
  rintro ⟨it, returned, -⟩
  have failed : (match direntIteratorInit (fun _ _ => 0#8) (extentEditor 0x41ed 3072 2) 2 with
    | .error fail => decide (fail = .memory)
    | .ok _ => false) = true := by decide +kernel
  rw [returned] at failed
  cases failed

end ImgEditor
