import ImgEditor.Fs.Ext2Blocks
import ImgEditor.Fs.Ext2Detect
import ImgEditor.Fs.Ext2Extents

namespace ImgEditor

open Storage

def callocFile (size : Nat) : File := ⟨size, fun _ => 0#8, fun _ _ => rfl⟩

def storeBytes (buf : File) (pos : Nat) (bytes : List Byte) : Ext2M File :=
  if bytes ≠ [] ∧ buf.size < pos + bytes.length then throw .memory else return buf.writeAt pos bytes

/-- read(2) at an offset of the image into a buffer. -/
def readInto (p : Ext2Editor) (offset pos count : Nat) (buf : File) : Ext2M File :=
  storeBytes buf pos ((p.fd.fileseek offset).read count).1

/-- The loop of `load_file_from_dir_blocks`; `chunk_sz` is a `uint32_t`. -/
def loadDirBlocks (p : Ext2Editor) : List Nat → Nat → Nat → File → Ext2M File
  | [], _, _, buf => return buf
  | blkno :: rest, bufsz, copied, buf =>
    if bufsz = 0 then return buf
    else do
      let chunkSz := min (bufsz % 2^32) p.blockSize
      let buf ← readInto p (blkno * p.blockSize % 2^32) copied chunkSz buf
      loadDirBlocks p rest (bufsz - chunkSz) (copied + chunkSz) buf

def loadFileFromDirBlocks (p : Ext2Editor) (inode : List Byte) (buf : File) : Ext2M File :=
  match ext2InodeBlocksRead p inode ⟨[], none⟩ with
  | none => throw .error
  | some b =>
    if b.blocks.length * p.blockSize % 2^64 < buf.size then throw .error
    else loadDirBlocks p b.blocks buf.size 0 buf

def allocExtents (p : Ext2Editor) : List Ext4Extent → Nat → File → Ext2M File
  | [], _, buf => return buf
  | ee :: rest, filesz, buf => do
    let bytes := min (p.blockSize * ee.eeLen % 2^32) filesz
    let buf ← readInto p (ext4ExtentStartBlock ee * p.blockSize % 2^64) (ee.eeBlock * p.blockSize % 2^32) bytes buf
    allocExtents p rest (filesz - bytes) buf

/-- `alloc_inode_file`; `.error .error` is a `NULL`. No object is larger than `PTRDIFF_MAX`. -/
def allocInodeFile (junk : Nat → Memory) (p : Ext2Editor) (ino : Nat) : Ext2M File := do
  let inode ← found .error (ext2ReadInode p ino)
  refuseIf .error (inodeMode inode &&& INODE_MODE_S_IFLINK = 0)
  let filesz := inodeSize64 inode
  refuseIf .error (2^63 ≤ filesz)
  let buf := callocFile filesz
  if filesz = 0 then return buf
  else if inodeFlags inode &&& EXT4_EXTENTS_FL = 0 then loadFileFromDirBlocks p inode buf
  else
    match extentIteratorInit p junk 6 ino none with
    | .error _ => throw .error
    | .ok it => allocExtents p (it.parent.getD []) filesz buf

/-! ## The copies that are made for the extents -/

def readCopies (src : File) : List Copy → File → Ext2M File
  | [], buf => return buf
  | c :: rest, buf => do
    let buf ← storeBytes buf c.pos (src.readAt c.place (min c.len 0x7ffff000))
    readCopies src rest buf

theorem storeBytes_inside {buf : File} {pos : Nat} {bytes : List Byte} (inside : bytes = [] ∨ pos + bytes.length ≤ buf.size) :
    storeBytes buf pos bytes = .ok (buf.writeAt pos bytes) := by
  apply if_neg
  rintro ⟨some, outside⟩
  have fits := inside.resolve_left some
  omega

theorem writeAt_size_inside {buf : File} {pos : Nat} {bytes : List Byte} (inside : bytes = [] ∨ pos + bytes.length ≤ buf.size) :
    (buf.writeAt pos bytes).size = buf.size := by
  by_cases none : bytes = []
  · rw [none, File.writeAt_nil]
  · rw [File.writeAt_size _ _ _ none]
    exact Nat.max_eq_left (inside.resolve_left none)

def CopyReadable (src : File) (c : Copy) : Prop := c.len ≤ 0x7ffff000 ∧ c.place + c.len ≤ src.size

theorem CopyReadable.bytes {src : File} {c : Copy} (readable : CopyReadable src c) :
    src.readAt c.place (min c.len 0x7ffff000) = src.readAt c.place c.len ∧ (src.readAt c.place c.len).length = c.len := by
  have inside := readable.2
  rw [Nat.min_eq_left readable.1, File.readAt_length]
  exact ⟨rfl, by omega⟩

theorem readCopies_fits {src : File} {copies : List Copy} {buf : File}
    (fits : ∀ c ∈ copies, c.len = 0 ∨ CopyReadable src c ∧ c.stop ≤ buf.size) :
    readCopies src copies buf = .ok (Copy.copyAll src copies buf) ∧ (Copy.copyAll src copies buf).size = buf.size := by
  induction copies generalizing buf with
  | nil => exact ⟨rfl, rfl⟩
  | cons c rest ih =>
    have same : src.readAt c.place (min c.len 0x7ffff000) = src.readAt c.place c.len := by
      rcases fits c List.mem_cons_self with none | ⟨readable, -⟩
      · rw [none]
        rfl
      · exact readable.bytes.1
    have inside : src.readAt c.place c.len = [] ∨ c.pos + (src.readAt c.place c.len).length ≤ buf.size := by
      rcases fits c List.mem_cons_self with none | ⟨readable, stop⟩
      · refine .inl (List.eq_nil_of_length_eq_zero ?_)
        rw [File.readAt_length, none, Nat.zero_min]
      · rw [readable.bytes.2]
        exact .inr stop
    have size := writeAt_size_inside inside
    have tail := @ih (buf.writeAt c.pos (src.readAt c.place c.len)) (by
      rw [size]
      exact fun d later => fits d (List.mem_cons_of_mem _ later))
    refine ⟨?_, tail.2.trans size⟩
    rw [readCopies, same, storeBytes_inside inside]
    exact tail.1

theorem readCopies_overflows {src : File} {before after : List Copy} {d : Copy} {buf : File}
    (fits : ∀ c ∈ before, CopyReadable src c ∧ c.stop ≤ buf.size)
    (exceeds : ∃ n, 0 < n ∧ n ≤ (src.readAt d.place (min d.len 0x7ffff000)).length ∧ buf.size < d.pos + n) :
    readCopies src (before ++ d :: after) buf = .error .memory := by
  induction before generalizing buf with
  | nil =>
    rcases exceeds with ⟨n, some, read, outside⟩
    have nonempty : src.readAt d.place (min d.len 0x7ffff000) ≠ [] := by
      intro none
      rw [none] at read
      exact absurd (some.trans_le read) (Nat.lt_irrefl 0)
    have stored : storeBytes buf d.pos (src.readAt d.place (min d.len 0x7ffff000)) = .error .memory :=
      if_pos ⟨nonempty, by omega⟩
    rw [List.nil_append, readCopies, stored]
    rfl
  | cons c rest ih =>
    rcases fits c List.mem_cons_self with ⟨readable, stop⟩
    rcases readable.bytes with ⟨same, length⟩
    have inside : src.readAt c.place c.len = [] ∨ c.pos + (src.readAt c.place c.len).length ≤ buf.size := by
      rw [length]
      exact .inr stop
    have size := writeAt_size_inside inside
    rw [List.cons_append, readCopies, same, storeBytes_inside inside]
    apply ih
    · rw [size]
      exact fun e later => fits e (List.mem_cons_of_mem _ later)
    · rwa [size]

section Extents

variable {p : Ext2Editor} (small : p.blockSize ≤ 65536) (offsets : p.fd.file.size < 2^63)

include small offsets

theorem allocExtents_copies {extents : List Ext4Extent} (stored : ∀ ee ∈ extents,
      p.fd.start + (ext4ExtentStartBlock ee + extentBlocks ee) * p.blockSize ≤ p.fd.file.size)
    (near : ∀ ee ∈ extents, ee.eeBlock * p.blockSize < 2^32) (lengths : ∀ ee ∈ extents, ee.eeLen < 2^16) (filesz : Nat)
    (buf : File) :
    allocExtents p extents filesz buf = readCopies p.fd.file (Copy.clip (extents.map (extentCopy p)) filesz) buf := by
  induction extents generalizing filesz buf with
  | nil => rfl
  | cons ee rest ih =>
    rw [List.forall_mem_cons] at stored near lengths
    have bytes := extent_bytes small lengths.1
    have place := extent_place offsets stored.1
    have seek : ext4ExtentStartBlock ee * p.blockSize % 2^64 = ext4ExtentStartBlock ee * p.blockSize :=
      Nat.mod_eq_of_lt (by omega)
    rw [allocExtents, List.map_cons, Copy.clip, readCopies]
    dsimp only [extentCopy]
    rw [bytes, seek, Nat.mod_eq_of_lt near.1]
    unfold readInto Fd.read
    dsimp only
    rw [Fd.fileseek_file, Fd.fileseek_pos _ _ place]
    refine congrArg (bind _) ?_
    funext buf
    exact ih stored.2 near.2 lengths.2 _ _

end Extents

/-- Nothing is written outside of the buffer, and a buffer that is returned holds the file. -/
def AllocFileRight (junk : Nat → Memory) (p : Ext2Editor) (ino size : Nat) (extents : List Ext4Extent) : Prop :=
  allocInodeFile junk p ino ≠ .error .memory ∧
    ∀ buf, allocInodeFile junk p ino = .ok buf → buf.size = size ∧ ∀ o < size, Ext4FileByte p extents o (buf.byte o)

theorem allocExtents_fit {p : Ext2Editor} {size : Nat} {extents : List Ext4Extent} (positive : 0 < p.blockSize)
    (valid : ExtentsValid p extents) (plain : ExtentsPlain p size extents)
    (short : ∀ ee ∈ extents, ee.eeBlock * p.blockSize < size → ee.eeLen * p.blockSize ≤ 0x7ffff000) {buf : File}
    (room : buf.size = size) :
    ExtentsFit p size extents ∧ (∃ written, readCopies p.fd.file (Copy.clip (extents.map (extentCopy p)) size) buf = .ok written ∧
        written.size = size ∧ written = Copy.copyAll p.fd.file (Copy.clip (extents.map (extentCopy p)) size) buf) ∨
      ¬ ExtentsFit p size extents ∧
        readCopies p.fd.file (Copy.clip (extents.map (extentCopy p)) size) buf = .error .memory := by
  have readable : ∀ c ∈ extents.map (extentCopy p), c.pos < size → CopyReadable p.fd.file c := by
    rw [List.forall_mem_map]
    intro ee member below
    have stored := valid.stored ee member
    rw [extentBlocks_written (plain.written ee member below), Nat.add_mul, ← Nat.add_assoc] at stored
    exact ⟨short ee member below, stored⟩
  have some_copied : ∀ c ∈ extents.map (extentCopy p), 0 < c.len := by
    rw [List.forall_mem_map]
    intro ee member
    exact Nat.mul_pos ((valid.nonempty ee member).trans_le (extentBlocks_le ee)) positive
  rcases extentCopies_clipped positive valid plain.written with ⟨fit, within⟩ | ⟨unfit, before, d, after, clipped, full, some, exceeds,
    c, origin, place, pos, len⟩
  · refine .inl ⟨fit, ?_⟩
    have fits := @readCopies_fits p.fd.file (Copy.clip (extents.map (extentCopy p)) size) buf (by
      intro d member
      by_cases none : d.len = 0
      · exact .inl none
      have stop := (within d member).resolve_left none
      rcases Copy.clip_mem _ _ d member with ⟨c, origin, place, pos, len⟩
      have below : d.pos < size := by
        unfold Copy.stop at stop
        omega
      rcases readable c origin (by omega) with ⟨once, inside⟩
      exact .inr ⟨⟨by omega, by omega⟩, by omega⟩)
    exact ⟨_, fits.1, fits.2.trans room, rfl⟩
  · refine .inr ⟨unfit, ?_⟩
    rw [clipped]
    apply readCopies_overflows
    · intro b among
      rcases full b among with ⟨member, stop⟩
      have long := some_copied b member
      refine ⟨readable b member ?_, by omega⟩
      unfold Copy.stop at stop
      omega
    · rcases extentCopies_over positive valid plain.written some exceeds ⟨c, origin, place, pos, len⟩ with
        ⟨n, more, inside, outside, kind⟩
      refine ⟨n, more, ?_, by omega⟩
      rw [File.readAt_length]
      rcases kind with ⟨below, rfl⟩ | ⟨rfl, least⟩
      · have once := (readable c origin (by omega)).1
        omega
      · omega

section Inode

variable {p : Ext2Editor} {ino depth : Nat} {inode : List Byte} {tree : ExtentTree depth}
  (read : ext2ReadInode p ino = some inode) (valid : ValidExtentTree p inode depth tree)

include read valid

theorem allocInodeFile_eq (near : ∀ ee ∈ tree.leaves depth, ee.eeBlock * p.blockSize < 2^32) (junk : Nat → Memory) :
    allocInodeFile junk p ino =
      if inodeMode inode &&& INODE_MODE_S_IFLINK = 0 then .error .error
      else if 2^63 ≤ inodeSize64 inode then .error .error
      else if inodeSize64 inode = 0 then .ok (callocFile (inodeSize64 inode))
      else readCopies p.fd.file (Copy.clip ((tree.leaves depth).map (extentCopy p)) (inodeSize64 inode))
        (callocFile (inodeSize64 inode)) := by
  rcases valid.iterator read junk none with ⟨it, iterated, extents⟩
  have flag : ¬ inodeFlags inode &&& EXT4_EXTENTS_FL = 0 := valid.flag
  have copies := allocExtents_copies valid.blockSize.2 valid.offsets valid.extents.stored near valid.root.lengths
    (inodeSize64 inode) (callocFile (inodeSize64 inode))
  have link : refuseIf Ext2Fail.error (inodeMode inode &&& INODE_MODE_S_IFLINK = 0) =
      if inodeMode inode &&& INODE_MODE_S_IFLINK = 0 then .error .error else .ok () := rfl
  have large : refuseIf Ext2Fail.error (2^63 ≤ inodeSize64 inode) =
      if 2^63 ≤ inodeSize64 inode then .error .error else .ok () := rfl
  rw [allocInodeFile, read, found, pure_bind]
  dsimp only
  rw [link, large]
  by_cases refused : inodeMode inode &&& INODE_MODE_S_IFLINK = 0
  · rw [if_pos refused, if_pos refused]
    rfl
  rw [if_neg refused, if_neg refused]
  by_cases huge : 2^63 ≤ inodeSize64 inode
  · rw [if_pos huge, if_pos huge]
    rfl
  rw [if_neg huge, if_neg huge, if_neg flag, iterated]
  by_cases empty : inodeSize64 inode = 0
  · rw [if_pos empty, if_pos empty]
    rfl
  · rw [if_neg empty, if_neg empty, ← copies, ← extents]
    rfl

theorem allocInodeFile_right_iff (plain : ExtentsPlain p (inodeSize64 inode) (tree.leaves depth))
    (short : ∀ ee ∈ tree.leaves depth, ee.eeBlock * p.blockSize < inodeSize64 inode → ee.eeLen * p.blockSize ≤ 0x7ffff000)
    (junk : Nat → Memory) :
    AllocFileRight junk p ino (inodeSize64 inode) (tree.leaves depth) ↔
      inodeMode inode &&& INODE_MODE_S_IFLINK = 0 ∨ 2^63 ≤ inodeSize64 inode ∨
        ExtentsFit p (inodeSize64 inode) (tree.leaves depth) := by
  have positive : 0 < p.blockSize := by
    have sizes := valid.blockSize
    omega
  unfold AllocFileRight
  rw [allocInodeFile_eq read valid plain.near junk]
  by_cases refused : inodeMode inode &&& INODE_MODE_S_IFLINK = 0
  · rw [if_pos refused]
    exact iff_of_true ⟨nofun, nofun⟩ (.inl refused)
  rw [if_neg refused, or_iff_right refused]
  by_cases large : 2^63 ≤ inodeSize64 inode
  · rw [if_pos large]
    exact iff_of_true ⟨nofun, nofun⟩ (.inl large)
  rw [if_neg large, or_iff_right large]
  by_cases empty : inodeSize64 inode = 0
  · rw [if_pos empty, empty]
    refine iff_of_true ⟨nofun, ?_⟩ (.inr fun k below => absurd below (Nat.not_lt_zero _))
    intro buf returned
    rw [← Except.ok.inj returned]
    exact ⟨rfl, fun o inside => absurd inside (Nat.not_lt_zero o)⟩
  rw [if_neg empty]
  rcases @allocExtents_fit p _ _ positive valid.extents plain short (callocFile (inodeSize64 inode)) rfl with
    ⟨fit, written, result, size, copied⟩ | ⟨unfit, result⟩
  · rw [result]
    refine iff_of_true ⟨nofun, ?_⟩ fit
    intro buf returned
    obtain rfl := Except.ok.inj returned
    refine ⟨size, ?_⟩
    intro o inside
    rw [copied]
    exact extentCopies_bytes positive valid.extents plain.written inside rfl
  · rw [result]
    exact iff_of_false (fun right => right.1 rfl) unfit

end Inode

theorem allocInodeFile_right_iff_twoBlocks :
    AllocFileRight (fun _ _ => 0#8) (extentEditor 0x81a4 1500 1) 2 1500 ((twoExtents 1).leaves 0) := by
  have read := @twoExtents_read 0x81a4 1500 1 (by decide)
  have valid := @twoExtents_valid 0x81a4 1500 1 (by decide)
  have size : inodeSize64 (extentInode 0x81a4 1500 1) = 1500 := by decide +kernel
  rw [← size]
  refine (allocInodeFile_right_iff read valid ⟨?_, ?_⟩ ?_ _).mpr (.inr (.inr ?_))
  · exact twoExtents_all (fun _ => by decide) fun _ => by decide
  · exact twoExtents_all (by decide) (by decide)
  · exact twoExtents_all (fun _ => by decide) fun _ => by decide
  · rw [size]
    refine .inr fun k below => ?_
    have block : k * 1024 < 1500 := below
    rcases Nat.eq_zero_or_pos k with rfl | more
    · exact ⟨_, List.mem_cons_self, by decide⟩
    · obtain rfl : k = 1 := by omega
      exact ⟨_, List.mem_cons_of_mem _ List.mem_cons_self, by decide⟩

/-- Behind a hole the second extent of a file of 2500 bytes goes over the end of the buffer. -/
theorem allocInodeFile_overflows : ValidExtentTree (extentEditor 0x81a4 2500 2) (extentInode 0x81a4 2500 2) 0 (twoExtents 2) ∧
    ext2ReadInode (extentEditor 0x81a4 2500 2) 2 = some (extentInode 0x81a4 2500 2) ∧
      ¬ AllocFileRight (fun _ _ => 0#8) (extentEditor 0x81a4 2500 2) 2 2500 ((twoExtents 2).leaves 0) := by
  have valid := @twoExtents_valid 0x81a4 2500 2 (by decide)
  have read := @twoExtents_read 0x81a4 2500 2 (by decide)
  refine ⟨valid, read, fun right => right.1 ?_⟩
  have failed : (match allocInodeFile (fun _ _ => 0#8) (extentEditor 0x81a4 2500 2) 2 with
    | .error fail => decide (fail = .memory)
    | .ok _ => false) = true := by decide +kernel
  split at failed
  · rename_i fail returned
    rw [returned, of_decide_eq_true failed]
  · cases failed

end ImgEditor
