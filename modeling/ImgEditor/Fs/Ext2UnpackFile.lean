import ImgEditor.Fs.Ext2Extents
import ImgEditor.Fs.Ext2UnpackBlocks

namespace ImgEditor

open Storage

/-- The loop over the extents of `unpack_file`: its result and the file. -/
def unpackExtents (junk : Nat → Byte) (p : Ext2Editor) : List Ext4Extent → Nat → Fd → Int × Fd
  | [], _, fd => (0, fd)
  | ee :: rest, filesz, fd =>
    let bytes := min (p.blockSize * ee.eeLen % 2^32) filesz
    let done := dd64 junk (some p.fd) (some fd) (ext4ExtentStartBlock ee * p.blockSize % 2^64)
      (ee.eeBlock * p.blockSize % 2^32) bytes none ()
    if done.copied ≠ bytes then (-1, done.dst.getD fd)
    else unpackExtents junk p rest (filesz - bytes) (done.dst.getD fd)

def unpackInode (heap : Nat → Memory) (junk : Nat → Byte) (p : Ext2Editor) (ino : Nat) (inode : List Byte) : Int × Fd :=
  let filesz := inodeSize64 inode
  if filesz = 0 then (0, Fd.created)
  else if inodeFlags inode &&& EXT4_EXTENTS_FL = 0 then unpackFileFromDirBlocks junk p inode Fd.created
  else
    match extentIteratorInit p heap 6 ino none with
    | .error _ => (-1, Fd.created)
    | .ok it => unpackExtents junk p (it.parent.getD []) filesz Fd.created

/-- `unpack_file`: its result, and the output once that is opened. -/
def unpackFile (heap : Nat → Memory) (junk : Nat → Byte) (p : Ext2Editor) (ino : Nat) : Int × Option Fd :=
  match ext2ReadInode p ino with
  | none => (-1, none)
  | some inode =>
    if inodeMode inode &&& INODE_MODE_S_IFLINK = 0 then (-1, none)
    else (unpackInode heap junk p ino inode).map id some

/-! ## The copies that are made for the extents -/

def ddCopies (src : File) : List Copy → File → File
  | [], file => file
  | c :: rest, file =>
    if (src.readAt c.place c.len).length ≠ c.len then Copy.copyTo src file c else ddCopies src rest (Copy.copyTo src file c)

section Copies

variable {src : File}

theorem readAt_whole {c : Copy} (whole : c.len = 0 ∨ c.place + c.len ≤ src.size) :
    (src.readAt c.place c.len).length = c.len := by
  rw [File.readAt_length]
  omega

theorem ddCopies_whole {copies : List Copy} (whole : ∀ c ∈ copies, c.len = 0 ∨ c.place + c.len ≤ src.size) (file : File) :
    ddCopies src copies file = Copy.copyAll src copies file := by
  induction copies generalizing file with
  | nil => rfl
  | cons c rest ih =>
    rw [List.forall_mem_cons] at whole
    rw [ddCopies, if_neg (not_not_intro (readAt_whole whole.1)), ih whole.2]
    rfl

theorem size_le_ddCopies (copies : List Copy) (file : File) : file.size ≤ (ddCopies src copies file).size := by
  induction copies generalizing file with
  | nil => exact Nat.le_refl _
  | cons c rest ih =>
    have grown : file.size ≤ (Copy.copyTo src file c).size := File.size_le_writeAt ..
    rw [ddCopies]
    split
    · exact grown
    · exact grown.trans (ih _)

theorem ddCopies_over {before after : List Copy} {d : Copy} {size n : Nat}
    (whole : ∀ c ∈ before, c.len = 0 ∨ c.place + c.len ≤ src.size) (some : 0 < n) (part : n ≤ d.len)
    (inside : d.place + n ≤ src.size) (exceeds : size < d.pos + n) (file : File) :
    size < (ddCopies src (before ++ d :: after) file).size := by
  induction before generalizing file with
  | nil =>
    have length := src.readAt_length d.place d.len
    have grown : size < (Copy.copyTo src file d).size := by
      unfold Copy.copyTo
      rw [File.writeAt_size _ _ _ (List.ne_nil_of_length_pos (by omega))]
      omega
    rw [List.nil_append, ddCopies]
    split
    · exact grown
    · exact grown.trans_le (size_le_ddCopies _ _)
  | cons c rest ih =>
    rw [List.forall_mem_cons] at whole
    rw [List.cons_append, ddCopies, if_neg (not_not_intro (readAt_whole whole.1))]
    exact ih whole.2 _

end Copies

section Extents

variable {p : Ext2Editor} (small : p.blockSize ≤ 65536) (offsets : p.fd.file.size < 2^63)

include small offsets

theorem unpackExtents_copies (junk : Nat → Byte) {extents : List Ext4Extent} (stored : ∀ ee ∈ extents,
      p.fd.start + (ext4ExtentStartBlock ee + extentBlocks ee) * p.blockSize ≤ p.fd.file.size)
    (near : ∀ ee ∈ extents, ee.eeBlock * p.blockSize < 2^32) (lengths : ∀ ee ∈ extents, ee.eeLen < 2^16) (filesz : Nat)
    {fd : Fd} (plain : fd.start = 0) :
    (unpackExtents junk p extents filesz fd).2.file =
      ddCopies p.fd.file (Copy.clip (extents.map (extentCopy p)) filesz) fd.file := by
  induction extents generalizing filesz fd with
  | nil => rfl
  | cons ee rest ih =>
    rw [List.forall_mem_cons] at stored near lengths
    have bytes := extent_bytes small lengths.1
    have place := extent_place offsets stored.1
    have seek : ext4ExtentStartBlock ee * p.blockSize % 2^64 = ext4ExtentStartBlock ee * p.blockSize :=
      Nat.mod_eq_of_lt (by omega)
    have first := near.1
    rcases dd64_files junk p.fd fd (min (ee.eeLen * p.blockSize) filesz) place
      (show fd.start + ee.eeBlock * p.blockSize < 2 ^ 63 by omega) with ⟨pos, target⟩
    rw [unpackExtents, List.map_cons, Copy.clip, ddCopies]
    dsimp only [extentCopy]
    rw [bytes, seek, Nat.mod_eq_of_lt first, target, dd64_copied junk p.fd fd _ _ place, Option.getD_some, plain, Nat.zero_add]
    by_cases whole : (p.fd.file.readAt (p.fd.start + ext4ExtentStartBlock ee * p.blockSize)
        (min (ee.eeLen * p.blockSize) filesz)).length = min (ee.eeLen * p.blockSize) filesz
    · rw [if_neg (not_not_intro whole)]
      exact (ih stored.2 near.2 lengths.2 _ rfl).trans (if_neg (not_not_intro whole)).symm
    · rw [if_pos whole]
      exact (if_pos whole).symm

end Extents

def UnpackFileRight (heap : Nat → Memory) (junk : Nat → Byte) (p : Ext2Editor) (ino size : Nat) (extents : List Ext4Extent) :
    Prop :=
  ∃ fd, (unpackFile heap junk p ino).2 = some fd ∧ fd.file.size = size ∧ ∀ o < size, Ext4FileByte p extents o (fd.file.byte o)

/-- The last extent ends at the size, or no block in front of it is a hole. -/
def UnpackFits (p : Ext2Editor) (size : Nat) (extents : List Ext4Extent) : Prop :=
  ((∀ ee ∈ extents, (ee.eeBlock + extentBlocks ee) * p.blockSize ≤ size) ∧
    ∃ ee ∈ extents, (ee.eeBlock + extentBlocks ee) * p.blockSize = size) ∨
    ∀ k, k * p.blockSize < size → ∃ ee ∈ extents, CoversBlock ee k

section Unpack

variable {p : Ext2Editor} {size : Nat} {extents : List Ext4Extent} (valid : ExtentsValid p extents)
  (plain : ExtentsPlain p size extents)

include valid plain

theorem extentCopy_whole {d : Copy} (below : d.len = 0 ∨ d.pos < size)
    (origin : ∃ c ∈ extents.map (extentCopy p), d.place = c.place ∧ d.pos = c.pos ∧ d.len ≤ c.len) :
    d.len = 0 ∨ d.place + d.len ≤ p.fd.file.size := by
  rcases origin with ⟨c, among, place, pos, len⟩
  rcases List.mem_map.mp among with ⟨ee, member, rfl⟩
  have start : (extentCopy p ee).place = p.fd.start + ext4ExtentStartBlock ee * p.blockSize := rfl
  have length : (extentCopy p ee).len = ee.eeLen * p.blockSize := rfl
  have front : (extentCopy p ee).pos = ee.eeBlock * p.blockSize := rfl
  refine below.imp_right fun less => ?_
  have stored := valid.stored ee member
  rw [extentBlocks_written (plain.written ee member (by omega)), Nat.add_mul] at stored
  omega

theorem pieces_whole (within : ∀ d ∈ Copy.clip (extents.map (extentCopy p)) size, d.len = 0 ∨ d.stop ≤ size) :
    ∀ d ∈ Copy.clip (extents.map (extentCopy p)) size, d.len = 0 ∨ d.place + d.len ≤ p.fd.file.size := by
  intro d member
  have ends := within d member
  unfold Copy.stop at ends
  exact extentCopy_whole valid plain (by omega) (Copy.clip_mem _ _ d member)

variable (positive : 0 < p.blockSize)

include positive

/-- Some piece ends at the size when the last extent does, or when there is no hole. -/
theorem unpackFits_iff (some : 0 < size) (fit : ExtentsFit p size extents) :
    UnpackFits p size extents ↔ ∃ d ∈ Copy.clip (extents.map (extentCopy p)) size, 0 < d.len ∧ size ≤ d.stop := by
  have ordered := @extentCopies_ordered p size extents positive valid plain.written 0 fun _ _ => Nat.zero_le _
  have stop (ee : Ext4Extent) (member : ee ∈ extents) (ends : (ee.eeBlock + extentBlocks ee) * p.blockSize ≤ size) :
      (extentCopy p ee).stop = (ee.eeBlock + extentBlocks ee) * p.blockSize := by
    have room := Nat.mul_pos (valid.nonempty ee member) positive
    rw [Nat.add_mul] at ends
    rw [extentBlocks_written (plain.written ee member (by omega)), Nat.add_mul]
    rfl
  have inside (full : ∀ ee ∈ extents, (ee.eeBlock + extentBlocks ee) * p.blockSize ≤ size) :
      Copy.clip (extents.map (extentCopy p)) size = extents.map (extentCopy p) := by
    apply Copy.clip_within ordered (Nat.le_of_eq (Nat.zero_add _).symm)
    exact (extentCopies_within positive valid.nonempty plain.written).mpr full
  constructor
  · rintro (⟨full, ee, member, last⟩ | solid)
    · refine ⟨extentCopy p ee, ?_, ?_, ?_⟩
      · rw [inside full]
        exact List.mem_map_of_mem member
      · exact Nat.mul_pos ((valid.nonempty ee member).trans_le (extentBlocks_le ee)) positive
      · rw [stop ee member last.le, last]
    · have covered := (extentCopies_covered positive plain.written).mpr solid
      rcases (Copy.clip_covered ordered fun o _ below => covered o below).2 (size - 1) (Nat.zero_le _) (by omega) with
        ⟨d, member, front, back⟩
      rw [Nat.sub_zero] at member
      unfold Copy.stop at back ⊢
      exact ⟨d, member, by omega, by omega⟩
  · rintro ⟨d, member, -, last⟩
    rcases fit with full | solid
    · rw [inside full] at member
      rcases List.mem_map.mp member with ⟨ee, among, rfl⟩
      rw [stop ee among (full ee among)] at last
      exact .inl ⟨full, ee, among, Nat.le_antisymm (full ee among) last⟩
    · exact .inr solid

theorem unpackedSize_iff :
    (ddCopies p.fd.file (Copy.clip (extents.map (extentCopy p)) size) File.empty).size = size ↔ UnpackFits p size extents := by
  rcases extentCopies_clipped positive valid plain.written with ⟨fit, within⟩ | ⟨unfit, before, d, after, clipped, full, some, exceeds,
    origin⟩
  · have whole := pieces_whole valid plain within
    have grown (bound : Nat) := @Copy.copyAll_size_le _ p.fd.file whole File.empty bound
    have empty : File.empty.size = 0 := rfl
    have most := (grown size).mpr ⟨by omega, within⟩
    rw [ddCopies_whole whole]
    by_cases none : size = 0
    · refine iff_of_true (by omega) (.inr fun k below => ?_)
      omega
    · have last := grown (size - 1)
      rw [unpackFits_iff valid plain positive (by omega) fit]
      constructor
      · intro same
        by_contra short
        have less := last.mpr ⟨by omega, fun d member => by
          by_contra long
          exact short ⟨d, member, by omega, by omega⟩⟩
        omega
      · rintro ⟨d, member, some, stop⟩
        by_contra other
        have ends := (last.mp (by omega)).2 d member
        omega
  · have written : size < (ddCopies p.fd.file (before ++ d :: after) File.empty).size := by
      rcases extentCopies_over positive valid plain.written some exceeds origin with ⟨n, more, inside, outside, kind⟩
      refine @ddCopies_over p.fd.file before after d size n ?_ more (by omega) inside outside File.empty
      intro b among
      rcases full b among with ⟨member, stop⟩
      unfold Copy.stop at stop
      exact extentCopy_whole valid plain (by omega) ⟨b, member, rfl, rfl, Nat.le_refl _⟩
    rw [clipped]
    refine iff_of_false (by omega) fun fits => unfit ?_
    exact fits.imp_left And.left

theorem unpackFile_bytes (fits : UnpackFits p size extents) {o : Nat} (below : o < size) :
    Ext4FileByte p extents o
      ((ddCopies p.fd.file (Copy.clip (extents.map (extentCopy p)) size) File.empty).byte o) := by
  rcases extentCopies_clipped positive valid plain.written with ⟨-, within⟩ | ⟨unfit, -⟩
  · rw [ddCopies_whole (pieces_whole valid plain within)]
    exact extentCopies_bytes positive valid plain.written below rfl
  · exact absurd (fits.imp_left And.left) unfit

end Unpack

section Inode

variable {p : Ext2Editor} {ino depth : Nat} {inode : List Byte} {tree : ExtentTree depth}
  (read : ext2ReadInode p ino = some inode) (valid : ValidExtentTree p inode depth tree)

include read valid

theorem unpackInode_eq (heap : Nat → Memory) (junk : Nat → Byte) :
    unpackInode heap junk p ino inode =
      if inodeSize64 inode = 0 then (0, Fd.created) else unpackExtents junk p (tree.leaves depth) (inodeSize64 inode) Fd.created := by
  rcases valid.iterator read heap none with ⟨it, iterated, extents⟩
  have flag : ¬ inodeFlags inode &&& EXT4_EXTENTS_FL = 0 := valid.flag
  rw [unpackInode, if_neg flag, iterated, ← extents]

theorem unpackFile_file (regular : inodeMode inode &&& INODE_MODE_S_MASK = INODE_MODE_S_IFREG)
    (near : ∀ ee ∈ tree.leaves depth, ee.eeBlock * p.blockSize < 2^32) (heap : Nat → Memory) (junk : Nat → Byte) :
    ∃ fd, (unpackFile heap junk p ino).2 = some fd ∧
      fd.file = ddCopies p.fd.file (Copy.clip ((tree.leaves depth).map (extentCopy p)) (inodeSize64 inode)) File.empty := by
  have kind : ¬ inodeMode inode &&& INODE_MODE_S_IFLINK = 0 := by
    intro none
    have mask : INODE_MODE_S_MASK &&& INODE_MODE_S_IFLINK = INODE_MODE_S_IFLINK := by decide
    have masked : (inodeMode inode &&& INODE_MODE_S_MASK) &&& INODE_MODE_S_IFLINK = 0 := by
      rw [Nat.and_assoc, mask, none]
    rw [regular] at masked
    exact absurd masked (by decide)
  have opened : unpackFile heap junk p ino = (unpackInode heap junk p ino inode).map id some := by
    rw [unpackFile, read]
    exact if_neg kind
  refine ⟨(unpackInode heap junk p ino inode).2, by rw [opened, Prod.map_snd], ?_⟩
  rw [unpackInode_eq read valid heap junk]
  by_cases empty : inodeSize64 inode = 0
  · rw [if_pos empty, empty, ddCopies_whole fun d member => .inl (Copy.clip_zero _ d member),
      Copy.copyAll_none (Copy.clip_zero _)]
    rfl
  · rw [if_neg empty]
    exact unpackExtents_copies valid.blockSize.2 valid.offsets junk valid.extents.stored near valid.root.lengths _ rfl

theorem unpackFile_right_iff (regular : inodeMode inode &&& INODE_MODE_S_MASK = INODE_MODE_S_IFREG)
    (plain : ExtentsPlain p (inodeSize64 inode) (tree.leaves depth)) (heap : Nat → Memory) (junk : Nat → Byte) :
    UnpackFileRight heap junk p ino (inodeSize64 inode) (tree.leaves depth) ↔
      UnpackFits p (inodeSize64 inode) (tree.leaves depth) := by
  have positive : 0 < p.blockSize := by
    have sizes := valid.blockSize
    omega
  have size := unpackedSize_iff valid.extents plain positive
  rcases unpackFile_file read valid regular plain.near heap junk with ⟨fd, opened, file⟩
  constructor
  · rintro ⟨other, returned, whole, -⟩
    obtain rfl := Option.some.inj (returned.symm.trans opened)
    exact size.mp (by rwa [← file])
  · intro fits
    refine ⟨fd, opened, ?_, ?_⟩
    · rw [file]
      exact size.mpr fits
    · intro o inside
      rw [file]
      exact unpackFile_bytes valid.extents plain positive fits inside

end Inode

theorem unpackFile_right_iff_twoBlocks :
    UnpackFileRight (fun _ _ => 0#8) (fun _ => 0#8) (extentEditor 0x81a4 3072 2) 2 3072 ((twoExtents 2).leaves 0) := by
  have read := @twoExtents_read 0x81a4 3072 2 (by decide)
  have valid := @twoExtents_valid 0x81a4 3072 2 (by decide)
  have size : inodeSize64 (extentInode 0x81a4 3072 2) = 3072 := by decide +kernel
  rw [← size]
  refine (unpackFile_right_iff read valid (by decide +kernel) ⟨?_, ?_⟩ _ _).mpr (.inl ⟨?_, ?_⟩)
  · exact twoExtents_all (fun _ => by decide) fun _ => by decide
  · exact twoExtents_all (by decide) (by decide)
  · rw [size]
    exact twoExtents_all (by decide) (by decide)
  · rw [size]
    exact ⟨_, List.mem_cons_of_mem _ List.mem_cons_self, by decide⟩

/-- A file of 2500 bytes whose block 1 is a hole is written with 3072 bytes. -/
theorem unpackFile_long : ValidExtentTree (extentEditor 0x81a4 2500 2) (extentInode 0x81a4 2500 2) 0 (twoExtents 2) ∧
    ext2ReadInode (extentEditor 0x81a4 2500 2) 2 = some (extentInode 0x81a4 2500 2) ∧
      inodeMode (extentInode 0x81a4 2500 2) &&& INODE_MODE_S_MASK = INODE_MODE_S_IFREG ∧
        ¬ UnpackFileRight (fun _ _ => 0#8) (fun _ => 0#8) (extentEditor 0x81a4 2500 2) 2 2500 ((twoExtents 2).leaves 0) := by
  have read := @twoExtents_read 0x81a4 2500 2 (by decide)
  have valid := @twoExtents_valid 0x81a4 2500 2 (by decide)
  refine ⟨valid, read, by decide +kernel, ?_⟩
  rintro ⟨fd, returned, size, -⟩
  have written : (unpackFile (fun _ _ => 0#8) (fun _ => 0#8) (extentEditor 0x81a4 2500 2) 2).2.map (·.file.size) = some 3072 := by
    decide +kernel
  rw [returned, Option.map_some, size] at written
  exact absurd written (by decide)

end ImgEditor
