import ImgEditor.Fs.SquashfsTables

namespace ImgEditor

open Storage

/-! The records of the tables, as they are meant. -/

structure SquashfsBase where
  mode : BitVec 16
  uid : BitVec 16
  guid : BitVec 16
  mtime : BitVec 32
  inodeNumber : BitVec 32

/-- An entry of the index of a directory; its size is one less than that of the name. -/
structure SquashfsDirIndex where
  index : BitVec 32
  startBlock : BitVec 32
  name : List Byte
  named : 0 < name.length
  short : name.length ≤ 2^32

def SquashfsDirIndex.bytes (i : SquashfsDirIndex) : List Byte :=
  leBytes 4 i.index.toNat ++ leBytes 4 i.startBlock.toNat ++ leBytes 4 (i.name.length - 1) ++ i.name

inductive SquashfsBody where
  | dir (startBlock nlink : BitVec 32) (fileSize offset : BitVec 16) (parentInode : BitVec 32)
  | reg (startBlock fragment offset fileSize : BitVec 32) (blockList : List (BitVec 32))
  | symlink (nlink : BitVec 32) (symlink : List Byte) (short : symlink.length < 2^32)
  | blkdev (nlink rdev : BitVec 32)
  | chrdev (nlink rdev : BitVec 32)
  | fifo (nlink : BitVec 32)
  | socket (nlink : BitVec 32)
  | ldir (nlink fileSize startBlock parentInode : BitVec 32) (offset : BitVec 16) (xattr : BitVec 32)
    (index : List SquashfsDirIndex) (short : index.length < 2^16)
  | lreg (startBlock fileSize sparse : BitVec 64) (nlink fragment offset xattr : BitVec 32) (blockList : List (BitVec 32))
  | lsymlink (nlink : BitVec 32) (symlink : List Byte) (short : symlink.length < 2^32) (xattr : BitVec 32)
  | lblkdev (nlink rdev xattr : BitVec 32)
  | lchrdev (nlink rdev xattr : BitVec 32)
  | lfifo (nlink xattr : BitVec 32)
  | lsocket (nlink xattr : BitVec 32)

namespace SquashfsBody

def inodeType : SquashfsBody → Nat
  | dir .. => 1
  | reg .. => 2
  | symlink .. => 3
  | blkdev .. => 4
  | chrdev .. => 5
  | fifo .. => 6
  | socket .. => 7
  | ldir .. => 8
  | lreg .. => 9
  | lsymlink .. => 10
  | lblkdev .. => 11
  | lchrdev .. => 12
  | lfifo .. => 13
  | lsocket .. => 14

def words (list : List (BitVec 32)) : List Byte := list.flatMap fun word => leBytes 4 word.toNat

def bytes : SquashfsBody → List Byte
  | dir startBlock nlink fileSize offset parentInode =>
    leBytes 4 startBlock.toNat ++ leBytes 4 nlink.toNat ++ leBytes 2 fileSize.toNat ++ leBytes 2 offset.toNat ++
      leBytes 4 parentInode.toNat
  | reg startBlock fragment offset fileSize blockList =>
    words [startBlock, fragment, offset, fileSize] ++ words blockList
  | symlink nlink target _ => leBytes 4 nlink.toNat ++ leBytes 4 target.length ++ target
  | blkdev nlink rdev | chrdev nlink rdev => words [nlink, rdev]
  | fifo nlink | socket nlink => words [nlink]
  | ldir nlink fileSize startBlock parentInode offset xattr index _ =>
    words [nlink, fileSize, startBlock, parentInode] ++ leBytes 2 index.length ++ leBytes 2 offset.toNat ++
      leBytes 4 xattr.toNat ++ index.flatMap SquashfsDirIndex.bytes
  | lreg startBlock fileSize sparse nlink fragment offset xattr blockList =>
    leBytes 8 startBlock.toNat ++ leBytes 8 fileSize.toNat ++ leBytes 8 sparse.toNat ++
      words [nlink, fragment, offset, xattr] ++ words blockList
  | lsymlink nlink target _ xattr =>
    leBytes 4 nlink.toNat ++ leBytes 4 target.length ++ target ++ leBytes 4 xattr.toNat
  | lblkdev nlink rdev xattr | lchrdev nlink rdev xattr => words [nlink, rdev, xattr]
  | lfifo nlink xattr | lsocket nlink xattr => words [nlink, xattr]

end SquashfsBody

structure SquashfsInode where
  base : SquashfsBase
  body : SquashfsBody

namespace SquashfsInode

def baseBytes (r : SquashfsInode) : List Byte :=
  leBytes 2 r.body.inodeType ++ leBytes 2 r.base.mode.toNat ++ leBytes 2 r.base.uid.toNat ++ leBytes 2 r.base.guid.toNat ++
    leBytes 4 r.base.mtime.toNat ++ leBytes 4 r.base.inodeNumber.toNat

def bytes (r : SquashfsInode) : List Byte := r.baseBytes ++ r.body.bytes

def steps : Nat → List SquashfsInode → List (Nat × Int)
  | _, [] => []
  | place, r :: rest => (place, (r.base.inodeNumber.toNat : Int)) :: steps (place + r.bytes.length) rest

end SquashfsInode

/-- The inodes of a table are listed, each at its place and with its number. -/
def SquashfsInodesRight (uids : List SquashfsPoint) (records : List SquashfsInode) : Prop :=
  ∃ lines, squashfsDoInodes uids 0 (records.flatMap SquashfsInode.bytes) = .ok lines ∧
    lines.map (fun line => (line.place, line.base.inodeNumber)) = SquashfsInode.steps 0 records

/-! ## Where the code does so -/

def TextEnds (bytes : List Byte) (precision : Int) : Prop := (0 ≤ precision ∧ precision ≤ bytes.length) ∨ 0 ∈ bytes

/-- The size that stands in the index at 12 bytes for each entry before. -/
def steppedSize (index : List SquashfsDirIndex) (i : Nat) : Nat := leField (index.flatMap SquashfsDirIndex.bytes) (12 * i + 8) 4

def steppedLength (index : List SquashfsDirIndex) : Nat :=
  ((List.range index.length).map fun i => (steppedSize index i + 1) % 2^32 + 12).sum

namespace SquashfsBody

/-- `this_size`; the block sizes of a file are left out. -/
def taken : SquashfsBody → Nat
  | dir .. | reg .. => 32
  | symlink _ target _ => 24 + target.length
  | lreg .. => 56
  | ldir _ _ _ _ _ _ index _ => 40 + steppedLength index
  | _ => 0

/-- The type has a case, and the texts end inside the table. -/
def Fits (rest : List Byte) : SquashfsBody → Prop
  | dir .. | reg .. | lreg .. => True
  | symlink _ target _ => TextEnds (target ++ rest) (toInt32 target.length)
  | ldir _ _ _ _ _ _ index _ => ∀ i < index.length,
      TextEnds ((index.flatMap SquashfsDirIndex.bytes ++ rest).drop (12 * i + 12)) (toInt32 ((steppedSize index i + 1) % 2^32 : Nat))
  | _ => False

end SquashfsBody

/-- The ids are in the first block of the table of ids. -/
def SquashfsBase.IdsFit (uids : List SquashfsPoint) (base : SquashfsBase) : Prop :=
  ∃ point ∈ uids.head?, 4 * base.uid.toNat + 4 ≤ point.buf.length ∧ 4 * base.guid.toNat + 4 ≤ point.buf.length

/-- The number is a positive `int`, too. -/
structure SquashfsBase.Fits (uids : List SquashfsPoint) (base : SquashfsBase) : Prop where
  ids : base.IdsFit uids
  number : base.inodeNumber.toNat < 2^31

/-- A file has no block sizes, and the sizes of an index add up; behind the last inode the loop leaves up to 16 bytes. -/
def SquashfsBody.StepsTo (rest : List SquashfsInode) : SquashfsBody → Prop
  | reg _ _ _ _ blockList | lreg _ _ _ _ _ _ _ blockList => blockList = [] ∨ rest = [] ∧ blockList.length ≤ 4
  | ldir _ _ _ _ _ _ index _ => steppedLength index = (index.flatMap SquashfsDirIndex.bytes).length ∨
      rest = [] ∧ (index.flatMap SquashfsDirIndex.bytes).length ≤ steppedLength index + 16
  | _ => True

def SquashfsInodesFit (uids : List SquashfsPoint) : List SquashfsInode → Prop
  | [] => True
  | r :: rest => r.base.Fits uids ∧ r.body.Fits (rest.flatMap SquashfsInode.bytes) ∧ r.body.StepsTo rest ∧ SquashfsInodesFit uids rest

section Fields

theorem squashfsField_ok {tail : List Byte} {offset width : Nat} (inside : offset + width ≤ tail.length) :
    squashfsField tail offset width = .ok (leField tail offset width) := if_pos inside

theorem squashfsField_eq_ok {tail : List Byte} {offset width value : Nat} (read : squashfsField tail offset width = .ok value) :
    offset + width ≤ tail.length ∧ leField tail offset width = value := by
  unfold squashfsField at read
  split at read
  · exact ⟨‹_›, Except.ok.inj read⟩
  · cases read

theorem takeWhile_length_lt_iff (bytes : List Byte) : (bytes.takeWhile (· ≠ 0)).length < bytes.length ↔ 0 ∈ bytes := by
  induction bytes with
  | nil => simp
  | cons head tail ih =>
    by_cases ends : head = 0
    · simp [ends]
    · rw [List.takeWhile_cons_of_pos (by simpa using ends)]
      simp only [List.length_cons, List.mem_cons, Nat.add_lt_add_iff_right, ih]
      exact ⟨Or.inr, fun either => either.resolve_left fun same => ends same.symm⟩

theorem squashfsText_ok_iff (bytes : List Byte) (precision : Int) :
    (∃ text, squashfsText bytes precision = .ok text) ↔ TextEnds bytes precision := by
  have shorter := (List.takeWhile_sublist (l := bytes) (· ≠ 0)).length_le
  unfold squashfsText TextEnds
  rw [← takeWhile_length_lt_iff]
  dsimp only
  split
  · exact iff_of_true ⟨_, rfl⟩ (Or.inl (by omega))
  · split
    · exact iff_of_true ⟨_, rfl⟩ (Or.inr ‹_›)
    · exact iff_of_false nofun (by omega)

end Fields

/-- The bound that the ids of an inode are checked with, as the code computes it. -/
def maxIdx (point : SquashfsPoint) : Nat :=
  if point.buf.length < 4 then 2^64 + point.buf.length - 4 else point.buf.length - 4

namespace SquashfsInode

variable (r : SquashfsInode) (rest : List Byte)

@[simp] theorem baseBytes_length : r.baseBytes.length = 16 := by
  simp [baseBytes]

theorem inodeType_lt (body : SquashfsBody) : 1 ≤ body.inodeType ∧ body.inodeType ≤ 14 := by
  cases body <;> simp [SquashfsBody.inodeType]

theorem leField_base {offset width : Nat} (inside : offset + width ≤ 16) :
    leField (r.bytes ++ rest) offset width = leField r.baseBytes offset width := by
  have fits : offset + width ≤ r.baseBytes.length := by
    rw [baseBytes_length]
    exact inside
  rw [bytes, List.append_assoc, leField_append_left _ _ _ _ fits]

theorem base_inodeType : leField r.baseBytes 0 2 = r.body.inodeType := by
  have known := inodeType_lt r.body
  simp [baseBytes]
  omega

theorem base_uid : leField r.baseBytes 4 2 = r.base.uid.toNat := by
  have small := r.base.uid.isLt
  simp [baseBytes]
  omega

theorem base_guid : leField r.baseBytes 6 2 = r.base.guid.toNat := by
  have small := r.base.guid.isLt
  simp [baseBytes]
  omega

theorem base_inodeNumber : leField r.baseBytes 12 4 = r.base.inodeNumber.toNat := by
  have small := r.base.inodeNumber.isLt
  simp [baseBytes]
  omega

theorem base_field {offset width : Nat} (inside : offset + width ≤ 16) :
    squashfsField (r.bytes ++ rest) offset width = .ok (leField r.baseBytes offset width) := by
  rw [← r.leField_base rest inside]
  apply squashfsField_ok
  rw [bytes, List.length_append, List.length_append, baseBytes_length]
  omega

theorem squashfsPrintBaseInode_cons (point : SquashfsPoint) (others : List SquashfsPoint) :
    squashfsPrintBaseInode (point :: others) (r.bytes ++ rest) = (do
      refuseIf .error (r.base.uid.toNat > maxIdx point ∨ r.base.guid.toNat > maxIdx point)
      let uid ← squashfsField point.buf (4 * r.base.uid.toNat) 4
      let gid ← squashfsField point.buf (4 * r.base.guid.toNat) 4
      return ⟨r.body.inodeType, leField r.baseBytes 2 2, toInt32 uid, toInt32 gid, toInt32 r.base.inodeNumber.toNat⟩) := by
  have known : squashfsInodeType r.body.inodeType = .ok () := if_pos (inodeType_lt r.body)
  unfold squashfsPrintBaseInode
  simp only [base_field, base_uid, base_guid, base_inodeType, base_inodeNumber, known, Nat.reduceAdd, Nat.reduceLeDiff, bind, Except.bind]
  rfl

/-- The base of an inode is printed where its ids are in the first block of the ids. -/
theorem squashfsPrintBaseInode_ok_iff (uids : List SquashfsPoint) :
    (∃ text, squashfsPrintBaseInode uids (r.bytes ++ rest) = .ok text) ↔ r.base.IdsFit uids := by
  cases uids with
  | nil =>
    apply iff_of_false
    · rintro ⟨text, printed⟩
      obtain ⟨uid, _, printed⟩ := bind_ok_iff.mp printed
      obtain ⟨gid, _, printed⟩ := bind_ok_iff.mp printed
      cases printed
    · rintro ⟨point, first, _⟩
      cases first
  | cons point others =>
    rw [squashfsPrintBaseInode_cons]
    constructor
    · rintro ⟨text, printed⟩
      obtain ⟨_, allowed, printed⟩ := bind_ok_iff.mp printed
      obtain ⟨uid, readUid, printed⟩ := bind_ok_iff.mp printed
      obtain ⟨gid, readGid, printed⟩ := bind_ok_iff.mp printed
      exact ⟨point, rfl, (squashfsField_eq_ok readUid).1, (squashfsField_eq_ok readGid).1⟩
    · rintro ⟨_, first, uidFits, guidFits⟩
      cases first
      have allowed : ¬ (r.base.uid.toNat > maxIdx point ∨ r.base.guid.toNat > maxIdx point) := by
        unfold maxIdx
        split <;> omega
      rw [(refuseIf_ok_iff (u := ())).mpr allowed, squashfsField_ok uidFits, squashfsField_ok guidFits]
      exact ⟨_, rfl⟩

theorem squashfsPrintBaseInode_right {uids : List SquashfsPoint} {text : SquashfsBaseText}
    (printed : squashfsPrintBaseInode uids (r.bytes ++ rest) = .ok text) :
    text.inodeType = r.body.inodeType ∧ text.inodeNumber = toInt32 r.base.inodeNumber.toNat := by
  obtain ⟨point, first, _⟩ := (r.squashfsPrintBaseInode_ok_iff rest uids).mp ⟨text, printed⟩
  cases uids with
  | nil => cases first
  | cons point others =>
    rw [squashfsPrintBaseInode_cons] at printed
    obtain ⟨_, allowed, printed⟩ := bind_ok_iff.mp printed
    obtain ⟨uid, readUid, printed⟩ := bind_ok_iff.mp printed
    obtain ⟨gid, readGid, printed⟩ := bind_ok_iff.mp printed
    cases printed
    dsimp only
    exact ⟨rfl, rfl⟩

end SquashfsInode

section Index

theorem ok_bind {α β : Type} (a : α) (next : α → SquashfsM β) : ((Except.ok a : SquashfsM α) >>= next) = next a := rfl

variable {head more : List Byte} (fixed : head.length = 40)

/-- What `squashfsLdirIndex` takes for the sizes, in what is behind the 40 bytes of the inode. -/
def namedSize (more : List Byte) (i : Nat) : Nat := (leField more (12 * i + 8) 4 + 1) % 2^32

include fixed

theorem leField_index (offset width : Nat) : leField (head ++ more) (40 + offset) width = leField more offset width := by
  rw [leField_append_right _ _ _ _ (by omega), fixed, Nat.add_sub_cancel_left]

theorem drop_index (offset : Nat) : (head ++ more).drop (40 + offset) = more.drop offset := by
  rw [← fixed, List.drop_append]
  simp

theorem field_index {offset width : Nat} (inside : offset + width ≤ more.length) :
    squashfsField (head ++ more) (40 + offset) width = .ok (leField more offset width) := by
  rw [squashfsField_ok, leField_index fixed]
  rw [List.length_append, fixed]
  omega

theorem squashfsLdirIndex_succ {i : Nat} (count : Nat) (inside : 12 * i + 12 ≤ more.length) :
    squashfsLdirIndex (head ++ more) i (count + 1) = (do
      let name ← squashfsText (more.drop (12 * i + 12)) (toInt32 (namedSize more i))
      let (rest, thisSize) ← squashfsLdirIndex (head ++ more) (i + 1) count
      return (⟨leField more (12 * i) 4, leField more (12 * i + 4) 4, leField more (12 * i + 8) 4, name⟩ :: rest,
        namedSize more i + 12 + thisSize)) := by
  rw [squashfsLdirIndex]
  simp only [Nat.add_assoc 40]
  rw [field_index fixed (by omega), ok_bind, field_index fixed (by omega), ok_bind, field_index fixed (by omega), ok_bind,
    drop_index fixed, namedSize]

theorem squashfsLdirIndex_ok_iff {i count n : Nat} (inside : 12 * (i + count) ≤ more.length) :
    (∃ index, squashfsLdirIndex (head ++ more) i count = .ok (index, n)) ↔
      (∀ j ∈ List.range' i count, TextEnds (more.drop (12 * j + 12)) (toInt32 (namedSize more j))) ∧
        n = ((List.range' i count).map fun j => namedSize more j + 12).sum := by
  induction count generalizing i n with
  | zero =>
    constructor
    · rintro ⟨index, stepped⟩
      exact ⟨nofun, (Prod.mk.inj (Except.ok.inj stepped)).2.symm⟩
    · rintro ⟨_, same⟩
      exact ⟨[], by rw [same]; rfl⟩
  | succ count ih =>
    rw [squashfsLdirIndex_succ fixed count (by omega), List.range'_succ, List.forall_mem_cons, List.map_cons, List.sum_cons,
      ← squashfsText_ok_iff]
    have behind (n : Nat) := ih (i := i + 1) (n := n) (by omega)
    constructor
    · rintro ⟨index, stepped⟩
      obtain ⟨name, printed, stepped⟩ := bind_ok_iff.mp stepped
      obtain ⟨⟨rest, thisSize⟩, others, stepped⟩ := bind_ok_iff.mp stepped
      obtain ⟨texts, size⟩ := (behind thisSize).mp ⟨rest, others⟩
      exact ⟨⟨⟨name, printed⟩, texts⟩, by rw [← (Prod.mk.inj (Except.ok.inj stepped)).2, size]⟩
    · rintro ⟨⟨⟨name, printed⟩, texts⟩, size⟩
      obtain ⟨rest, others⟩ := (behind _).mpr ⟨texts, rfl⟩
      rw [printed, size]
      exact ⟨_, bind_ok_iff.mpr ⟨name, rfl, bind_ok_iff.mpr ⟨_, others, rfl⟩⟩⟩

end Index

section Body

variable (rest : List Byte)

theorem bytes_length (r : SquashfsInode) : r.bytes.length = 16 + r.body.bytes.length := by
  rw [SquashfsInode.bytes, List.length_append, r.baseBytes_length]

theorem inside_field {bytes : List Byte} {offset width : Nat} (inside : offset + width ≤ bytes.length) :
    squashfsField (bytes ++ rest) offset width = .ok (leField bytes offset width) := by
  rw [squashfsField_ok, leField_append_left _ _ _ _ inside]
  rw [List.length_append]
  omega

theorem printed_iff {α : Type} {text : α} {n taken : Nat} :
    (∃ other, (Except.ok (text, taken) : SquashfsM (α × Nat)) = .ok (other, n)) ↔ True ∧ n = taken := by
  constructor
  · rintro ⟨other, same⟩
    exact ⟨True.intro, (Prod.mk.inj (Except.ok.inj same)).2.symm⟩
  · rintro ⟨_, same⟩
    exact ⟨text, by rw [same]⟩

theorem reg_ok_iff {bytes : List Byte} (long : 32 ≤ bytes.length) (n : Nat) :
    (∃ text, squashfsInodeText (bytes ++ rest) SQUASHFS_REG_TYPE = .ok (text, n)) ↔ True ∧ n = 32 := by
  rw [squashfsInodeText, if_pos rfl]
  rw [inside_field rest (by omega), ok_bind, inside_field rest (by omega), ok_bind, inside_field rest (by omega), ok_bind,
    inside_field rest (by omega), ok_bind]
  exact printed_iff

theorem dir_ok_iff {bytes : List Byte} (long : 32 ≤ bytes.length) (n : Nat) :
    (∃ text, squashfsInodeText (bytes ++ rest) SQUASHFS_DIR_TYPE = .ok (text, n)) ↔ True ∧ n = 32 := by
  rw [squashfsInodeText, if_neg (by decide), if_pos rfl]
  rw [inside_field rest (by omega), ok_bind, inside_field rest (by omega), ok_bind, inside_field rest (by omega), ok_bind,
    inside_field rest (by omega), ok_bind, inside_field rest (by omega), ok_bind]
  exact printed_iff

theorem lreg_ok_iff {bytes : List Byte} (long : 56 ≤ bytes.length) (n : Nat) :
    (∃ text, squashfsInodeText (bytes ++ rest) SQUASHFS_LREG_TYPE = .ok (text, n)) ↔ True ∧ n = 56 := by
  rw [squashfsInodeText, if_neg (by decide), if_neg (by decide), if_neg (by decide), if_pos rfl]
  rw [inside_field rest (by omega), ok_bind, inside_field rest (by omega), ok_bind, inside_field rest (by omega), ok_bind,
    inside_field rest (by omega), ok_bind, inside_field rest (by omega), ok_bind]
  exact printed_iff

theorem symlink_ok_iff {bytes : List Byte} (long : 24 ≤ bytes.length) (n : Nat) :
    (∃ text, squashfsInodeText (bytes ++ rest) SQUASHFS_SYMLINK_TYPE = .ok (text, n)) ↔
      TextEnds (bytes.drop 24 ++ rest) (toInt32 (leField bytes 20 4)) ∧ n = 24 + leField bytes 20 4 := by
  rw [squashfsInodeText, if_neg (by decide), if_neg (by decide), if_pos rfl]
  rw [inside_field rest (by omega), ok_bind, List.drop_append_of_le_length long, ← squashfsText_ok_iff]
  constructor
  · rintro ⟨text, printed⟩
    obtain ⟨symlink, ends, printed⟩ := bind_ok_iff.mp printed
    exact ⟨⟨symlink, ends⟩, (Prod.mk.inj (Except.ok.inj printed)).2.symm⟩
  · rintro ⟨⟨symlink, ends⟩, same⟩
    rw [same]
    exact ⟨_, bind_ok_iff.mpr ⟨symlink, ends, rfl⟩⟩

theorem ldir_ok_iff {head more : List Byte} (fixed : head.length = 40) (long : 12 * leField head 32 2 ≤ more.length) (n : Nat) :
    (∃ text, squashfsInodeText (head ++ more) SQUASHFS_LDIR_TYPE = .ok (text, n)) ↔
      (∀ i < leField head 32 2, TextEnds (more.drop (12 * i + 12)) (toInt32 (namedSize more i))) ∧
        n = 40 + ((List.range (leField head 32 2)).map fun i => namedSize more i + 12).sum := by
  have listed (size : Nat) := @squashfsLdirIndex_ok_iff head more fixed 0 (leField head 32 2) size (by omega)
  simp only [← List.range_eq_range', List.mem_range] at listed
  rw [squashfsInodeText, if_neg (by decide), if_neg (by decide), if_neg (by decide), if_neg (by decide), if_pos rfl]
  rw [inside_field more (by omega), ok_bind, inside_field more (by omega), ok_bind, inside_field more (by omega), ok_bind]
  constructor
  · rintro ⟨text, printed⟩
    obtain ⟨⟨index, indexSize⟩, stepped, printed⟩ := bind_ok_iff.mp printed
    obtain ⟨texts, size⟩ := (listed indexSize).mp ⟨index, stepped⟩
    exact ⟨texts, by rw [← (Prod.mk.inj (Except.ok.inj printed)).2, size]⟩
  · rintro ⟨texts, same⟩
    obtain ⟨index, stepped⟩ := (listed _).mpr ⟨texts, rfl⟩
    rw [same]
    exact ⟨_, bind_ok_iff.mpr ⟨_, stepped, rfl⟩⟩

theorem other_ok_iff {tail : List Byte} {inodeType : Nat}
    (other : inodeType ∉ [SQUASHFS_DIR_TYPE, SQUASHFS_REG_TYPE, SQUASHFS_SYMLINK_TYPE, SQUASHFS_LDIR_TYPE, SQUASHFS_LREG_TYPE])
    (n : Nat) : (∃ text, squashfsInodeText tail inodeType = .ok (text, n)) ↔ False ∧ n = 0 := by
  simp only [List.mem_cons, List.not_mem_nil, or_false, not_or] at other
  obtain ⟨dir, reg, symlink, ldir, lreg⟩ := other
  rw [squashfsInodeText, if_neg reg, if_neg dir, if_neg symlink, if_neg lreg, if_neg ldir]
  exact iff_of_false nofun And.left

theorem index_length_le (index : List SquashfsDirIndex) : 12 * index.length ≤ (index.flatMap SquashfsDirIndex.bytes).length := by
  induction index with
  | nil => simp
  | cons head tail ih =>
    rw [List.flatMap_cons, List.length_append, List.length_cons]
    have size : head.bytes.length = 12 + head.name.length := by
      simp [SquashfsDirIndex.bytes]
      omega
    omega

theorem namedSize_append {index : List SquashfsDirIndex} {i : Nat} (inside : i < index.length) :
    namedSize (index.flatMap SquashfsDirIndex.bytes ++ rest) i = (steppedSize index i + 1) % 2^32 := by
  have long := index_length_le index
  rw [namedSize, steppedSize, leField_append_left _ _ _ _ (by omega)]

theorem symlink_text_ok_iff (base : SquashfsBase) (nlink : BitVec 32) (target : List Byte) (short : target.length < 2^32) (n : Nat) :
    (∃ text, squashfsInodeText ((SquashfsInode.mk base (.symlink nlink target short)).bytes ++ rest) SQUASHFS_SYMLINK_TYPE = .ok (text, n)) ↔
      TextEnds (target ++ rest) (toInt32 target.length) ∧ n = 24 + target.length := by
  let head := (SquashfsInode.mk base (.symlink nlink target short)).baseBytes ++ leBytes 4 nlink.toNat ++ leBytes 4 target.length
  have shape : (SquashfsInode.mk base (.symlink nlink target short)).bytes = head ++ target := by
    simp [head, SquashfsInode.bytes, SquashfsBody.bytes]
  have fixed : head.length = 24 := by simp [head]
  have symlinkSize : leField (head ++ target) 20 4 = target.length := by
    rw [leField_append_left _ _ _ _ (by omega)]
    simp [head]
    exact short
  have stepped := @symlink_ok_iff rest (head ++ target) (by rw [List.length_append]; omega) n
  rw [symlinkSize, List.drop_left' fixed] at stepped
  rw [shape]
  exact stepped

theorem ldir_text_ok_iff (base : SquashfsBase) (nlink fileSize startBlock parentInode : BitVec 32) (offset : BitVec 16) (xattr : BitVec 32)
    (index : List SquashfsDirIndex) (short : index.length < 2^16) (n : Nat) :
    (∃ text, squashfsInodeText ((SquashfsInode.mk base (.ldir nlink fileSize startBlock parentInode offset xattr index short)).bytes ++ rest)
        SQUASHFS_LDIR_TYPE = .ok (text, n)) ↔
      (∀ i < index.length, TextEnds ((index.flatMap SquashfsDirIndex.bytes ++ rest).drop (12 * i + 12))
        (toInt32 ((steppedSize index i + 1) % 2^32 : Nat))) ∧ n = 40 + steppedLength index := by
  let head := (SquashfsInode.mk base (.ldir nlink fileSize startBlock parentInode offset xattr index short)).baseBytes ++
    SquashfsBody.words [nlink, fileSize, startBlock, parentInode] ++ leBytes 2 index.length ++ leBytes 2 offset.toNat ++ leBytes 4 xattr.toNat
  have shape : (SquashfsInode.mk base (.ldir nlink fileSize startBlock parentInode offset xattr index short)).bytes ++ rest =
      head ++ (index.flatMap SquashfsDirIndex.bytes ++ rest) := by
    simp [head, SquashfsInode.bytes, SquashfsBody.bytes]
  have fixed : head.length = 40 := by simp [head, SquashfsBody.words]
  have iCount : leField head 32 2 = index.length := by
    simp [head, SquashfsBody.words]
    exact short
  have long := index_length_le index
  have stepped := @ldir_ok_iff head (index.flatMap SquashfsDirIndex.bytes ++ rest) fixed
    (by rw [iCount, List.length_append]; omega) n
  rw [iCount] at stepped
  have sizes : ((List.range index.length).map fun i => namedSize (index.flatMap SquashfsDirIndex.bytes ++ rest) i + 12).sum =
      steppedLength index := by
    rw [steppedLength]
    congr 1
    apply List.map_congr_left
    intro i member
    rw [namedSize_append rest (List.mem_range.mp member)]
  rw [shape, stepped, sizes]
  apply and_congr_left
  intro _
  apply forall₂_congr
  intro i inside
  rw [namedSize_append rest inside]

theorem squashfsInodeText_ok_iff (r : SquashfsInode) (n : Nat) :
    (∃ text, squashfsInodeText (r.bytes ++ rest) r.body.inodeType = .ok (text, n)) ↔ r.body.Fits rest ∧ n = r.body.taken := by
  obtain ⟨base, body⟩ := r
  have size := bytes_length ⟨base, body⟩
  cases body with
  | reg startBlock fragment offset fileSize blockList =>
    apply reg_ok_iff
    simp [size, SquashfsBody.bytes, SquashfsBody.words]
    omega
  | dir startBlock nlink fileSize offset parentInode =>
    apply dir_ok_iff
    simp [size, SquashfsBody.bytes]
  | lreg startBlock fileSize sparse nlink fragment offset xattr blockList =>
    apply lreg_ok_iff
    simp [size, SquashfsBody.bytes, SquashfsBody.words]
    omega
  | symlink nlink target short => exact symlink_text_ok_iff rest base nlink target short n
  | ldir nlink fileSize startBlock parentInode offset xattr index short =>
    exact ldir_text_ok_iff rest base nlink fileSize startBlock parentInode offset xattr index short n
  | _ =>
    apply other_ok_iff
    simp [SquashfsBody.inodeType]
    decide

end Body

section Pass

variable (uids : List SquashfsPoint) (r : SquashfsInode) (rest : List Byte) (place : Nat)

/-- One pass prints the inode that it stands at, under the conditions of its base and its body. -/
theorem squashfsInodePass_ok_iff :
    (∃ line n, squashfsInodePass uids place (r.bytes ++ rest) = .ok (line, n)) ↔ r.base.IdsFit uids ∧ r.body.Fits rest := by
  constructor
  · rintro ⟨line, n, passed⟩
    obtain ⟨base, printed, passed⟩ := bind_ok_iff.mp passed
    obtain ⟨⟨text, thisSize⟩, body, passed⟩ := bind_ok_iff.mp passed
    rw [(r.squashfsPrintBaseInode_right rest printed).1] at body
    exact ⟨(r.squashfsPrintBaseInode_ok_iff rest uids).mp ⟨base, printed⟩,
      ((squashfsInodeText_ok_iff rest r thisSize).mp ⟨text, body⟩).1⟩
  · rintro ⟨ids, fits⟩
    obtain ⟨base, printed⟩ := (r.squashfsPrintBaseInode_ok_iff rest uids).mpr ids
    obtain ⟨text, body⟩ := (squashfsInodeText_ok_iff rest r r.body.taken).mpr ⟨fits, rfl⟩
    rw [← (r.squashfsPrintBaseInode_right rest printed).1] at body
    exact ⟨_, _, bind_ok_iff.mpr ⟨base, printed, bind_ok_iff.mpr ⟨_, body, rfl⟩⟩⟩

theorem squashfsInodePass_right {line : SquashfsInodeLine} {n : Nat}
    (passed : squashfsInodePass uids place (r.bytes ++ rest) = .ok (line, n)) :
    line.place = place ∧ line.base.inodeNumber = toInt32 r.base.inodeNumber.toNat ∧ n = r.body.taken := by
  obtain ⟨base, printed, passed⟩ := bind_ok_iff.mp passed
  obtain ⟨⟨text, thisSize⟩, body, passed⟩ := bind_ok_iff.mp passed
  obtain ⟨sameType, number⟩ := r.squashfsPrintBaseInode_right rest printed
  rw [sameType] at body
  have size := ((squashfsInodeText_ok_iff rest r thisSize).mp ⟨text, body⟩).2
  obtain ⟨sameLine, sameSize⟩ := Prod.mk.inj (Except.ok.inj passed)
  rw [← sameLine, ← sameSize]
  exact ⟨rfl, number, size⟩

theorem toInt32_eq_iff (number : BitVec 32) : toInt32 number.toNat = number.toNat ↔ number.toNat < 2^31 := by
  have small := number.isLt
  unfold toInt32
  rw [Int.bmod_def]
  split <;> omega

theorem long_bytes : 16 < r.bytes.length := by
  rw [bytes_length]
  cases r.body <;> simp [SquashfsBody.bytes, SquashfsBody.words]

theorem taken_pos {body : SquashfsBody} (fits : body.Fits rest) : body.taken ≠ 0 := by
  cases body <;> simp [SquashfsBody.taken] <;> exact fits

end Pass

section Run

variable (uids : List SquashfsPoint)

theorem squashfsDoInodes_step {place : Nat} {tail : List Byte} (long : 16 < tail.length) {lines : List SquashfsInodeLine} :
    squashfsDoInodes uids place tail = .ok lines ↔
      ∃ line n others, squashfsInodePass uids place tail = .ok (line, n) ∧ n ≠ 0 ∧
        squashfsDoInodes uids (place + n) (tail.drop n) = .ok others ∧ line :: others = lines := by
  rw [squashfsDoInodes, if_pos long]
  constructor
  · intro listed
    obtain ⟨⟨line, n⟩, passed, listed⟩ := bind_ok_iff.mp listed
    dsimp only at listed
    split at listed
    · cases listed
    · obtain ⟨others, more, listed⟩ := bind_ok_iff.mp listed
      exact ⟨line, n, others, passed, ‹_›, more, Except.ok.inj listed⟩
  · rintro ⟨line, n, others, passed, moves, more, same⟩
    rw [passed, ok_bind]
    dsimp only
    rw [if_neg moves, more, ← same]
    rfl

theorem squashfsDoInodes_nil_iff (place : Nat) (tail : List Byte) :
    squashfsDoInodes uids place tail = .ok [] ↔ tail.length ≤ 16 := by
  by_cases long : 16 < tail.length
  · apply iff_of_false
    · intro listed
      obtain ⟨line, n, others, _, _, _, same⟩ := (squashfsDoInodes_step uids long).mp listed
      cases same
    · omega
  · rw [squashfsDoInodes, if_neg long]
    exact iff_of_true rfl (by omega)

theorem squashfsDoInodes_place {place : Nat} {tail : List Byte} {line : SquashfsInodeLine} {lines : List SquashfsInodeLine}
    (listed : squashfsDoInodes uids place tail = .ok (line :: lines)) : line.place = place := by
  by_cases long : 16 < tail.length
  · obtain ⟨first, n, others, passed, _, _, same⟩ := (squashfsDoInodes_step uids long).mp listed
    obtain ⟨base, _, passed⟩ := bind_ok_iff.mp passed
    obtain ⟨⟨text, _⟩, _, passed⟩ := bind_ok_iff.mp passed
    rw [← (List.cons.inj same).1, ← (Prod.mk.inj (Except.ok.inj passed)).1]
  · rw [squashfsDoInodes, if_neg long] at listed
    cases listed

/-- The rest of the loop goes on behind what is taken of the inode. -/
theorem squashfsDoInodes_cons (r : SquashfsInode) (rest : List Byte) (place : Nat) {lines : List SquashfsInodeLine} :
    squashfsDoInodes uids place (r.bytes ++ rest) = .ok lines ↔
      ∃ line others, squashfsInodePass uids place (r.bytes ++ rest) = .ok (line, r.body.taken) ∧
        squashfsDoInodes uids (place + r.body.taken) ((r.bytes ++ rest).drop r.body.taken) = .ok others ∧ line :: others = lines := by
  have long : 16 < (r.bytes ++ rest).length := by
    rw [List.length_append]
    exact Nat.lt_add_right _ (long_bytes r)
  rw [squashfsDoInodes_step uids long]
  constructor
  · rintro ⟨line, n, others, passed, moves, more, same⟩
    obtain ⟨_, _, size⟩ := squashfsInodePass_right uids r rest place passed
    subst size
    exact ⟨line, others, passed, more, same⟩
  · rintro ⟨line, others, passed, more, same⟩
    have fits := ((squashfsInodePass_ok_iff uids r rest place).mp ⟨line, _, passed⟩).2
    exact ⟨line, _, others, passed, taken_pos rest fits, more, same⟩

def listedRight (place : Nat) (records : List SquashfsInode) (lines : List SquashfsInodeLine) : Prop :=
  squashfsDoInodes uids place (records.flatMap SquashfsInode.bytes) = .ok lines ∧
    lines.map (fun line => (line.place, line.base.inodeNumber)) = SquashfsInode.steps place records

theorem listedRight_nil_iff (place : Nat) (lines : List SquashfsInodeLine) : listedRight uids place [] lines ↔ lines = [] := by
  have ends : squashfsDoInodes uids place [] = .ok [] := (squashfsDoInodes_nil_iff uids place []).mpr (by simp)
  constructor
  · intro right
    exact List.map_eq_nil_iff.mp right.2
  · intro same
    rw [same]
    exact ⟨ends, rfl⟩

/-- The next inode is where it is; behind the last one there may be something, but no base inode. -/
def SquashfsInode.StepsTo (r : SquashfsInode) : List SquashfsInode → Prop
  | [] => r.bytes.length ≤ r.body.taken + 16
  | _ :: _ => r.body.taken = r.bytes.length

theorem words_length (list : List (BitVec 32)) : (SquashfsBody.words list).length = 4 * list.length := by
  induction list with
  | nil => rfl
  | cons word list ih =>
    rw [SquashfsBody.words, List.flatMap_cons, List.length_append, leBytes_length, ← SquashfsBody.words, ih, List.length_cons]
    omega

theorem inode_stepsTo_iff {r : SquashfsInode} {bytes : List Byte} (fits : r.body.Fits bytes) (rest : List SquashfsInode) :
    r.StepsTo rest ↔ r.body.StepsTo rest := by
  have size := bytes_length r
  obtain ⟨base, body⟩ := r
  cases body with
  | dir startBlock nlink fileSize offset parentInode =>
    simp only [SquashfsBody.bytes, List.length_append, leBytes_length] at size
    cases rest <;> simp [SquashfsInode.StepsTo, SquashfsBody.StepsTo, SquashfsBody.taken, size]
  | symlink nlink target short =>
    simp only [SquashfsBody.bytes, List.length_append, leBytes_length] at size
    cases rest <;> simp [SquashfsInode.StepsTo, SquashfsBody.StepsTo, SquashfsBody.taken, size] <;> omega
  | reg startBlock fragment offset fileSize blockList =>
    simp only [SquashfsBody.bytes, List.length_append, words_length, List.length_cons, List.length_nil] at size
    cases rest <;> simp [SquashfsInode.StepsTo, SquashfsBody.StepsTo, SquashfsBody.taken, size, ← List.length_eq_zero_iff] <;> omega
  | lreg startBlock fileSize sparse nlink fragment offset xattr blockList =>
    simp only [SquashfsBody.bytes, List.length_append, leBytes_length, words_length, List.length_cons, List.length_nil] at size
    cases rest <;> simp [SquashfsInode.StepsTo, SquashfsBody.StepsTo, SquashfsBody.taken, size, ← List.length_eq_zero_iff] <;> omega
  | ldir nlink fileSize startBlock parentInode offset xattr index short =>
    simp only [SquashfsBody.bytes, List.length_append, leBytes_length, words_length, List.length_cons, List.length_nil] at size
    cases rest <;> simp only [SquashfsInode.StepsTo, SquashfsBody.StepsTo, SquashfsBody.taken, size, reduceCtorEq, true_and, false_and, or_false] <;> omega
  | _ => exact fits.elim

/-- Behind an inode the lines are right just where the loop has stepped to its end. -/
theorem stepsTo_iff (r : SquashfsInode) (rest : List SquashfsInode) (place : Nat) (lines : List SquashfsInodeLine) :
    (squashfsDoInodes uids (place + r.body.taken) ((r.bytes ++ rest.flatMap SquashfsInode.bytes).drop r.body.taken) = .ok lines ∧
        lines.map (fun line => (line.place, line.base.inodeNumber)) = SquashfsInode.steps (place + r.bytes.length) rest) ↔
      r.StepsTo rest ∧ listedRight uids (place + r.bytes.length) rest lines := by
  cases rest with
  | nil =>
    rw [listedRight_nil_iff, SquashfsInode.steps, List.map_eq_nil_iff]
    apply and_congr_left
    intro empty
    rw [empty, squashfsDoInodes_nil_iff, SquashfsInode.StepsTo, List.length_drop, List.flatMap_nil, List.append_nil]
    omega
  | cons next rest =>
    rw [SquashfsInode.StepsTo, listedRight]
    constructor
    · rintro ⟨listed, right⟩
      cases lines with
      | nil => cases right
      | cons line lines =>
        have stands := squashfsDoInodes_place uids listed
        have sameLine := (List.cons.inj right).1
        have moved : r.body.taken = r.bytes.length := by
          have samePlace : line.place = place + r.bytes.length := (Prod.mk.inj sameLine).1
          omega
        rw [moved, List.drop_left] at listed
        exact ⟨moved, listed, right⟩
    · rintro ⟨moved, listed, right⟩
      rw [moved, List.drop_left]
      exact ⟨listed, right⟩

theorem squashfsDoInodes_right_iff (records : List SquashfsInode) (place : Nat) :
    (∃ lines, listedRight uids place records lines) ↔ SquashfsInodesFit uids records := by
  induction records generalizing place with
  | nil => exact iff_of_true ⟨[], (listedRight_nil_iff uids place []).mpr rfl⟩ True.intro
  | cons r rest ih =>
    rw [SquashfsInodesFit]
    constructor
    · rintro ⟨lines, listed, right⟩
      obtain ⟨line, others, passed, more, same⟩ := (squashfsDoInodes_cons uids r _ place).mp listed
      obtain ⟨_, number, _⟩ := squashfsInodePass_right uids r _ place passed
      obtain ⟨ids, fits⟩ := (squashfsInodePass_ok_iff uids r _ place).mp ⟨line, _, passed⟩
      rw [← same, List.map_cons, SquashfsInode.steps] at right
      obtain ⟨sameLine, right⟩ := List.cons.inj right
      have sameNumber := (Prod.mk.inj sameLine).2
      rw [number] at sameNumber
      obtain ⟨stepsTo, behind⟩ := (stepsTo_iff uids r rest place others).mp ⟨more, right⟩
      exact ⟨⟨ids, (toInt32_eq_iff r.base.inodeNumber).mp sameNumber⟩, fits, (inode_stepsTo_iff fits rest).mp stepsTo,
        (ih _).mp ⟨others, behind⟩⟩
    · rintro ⟨⟨ids, small⟩, fits, stepsTo, behind⟩
      obtain ⟨line, n, passed⟩ := (squashfsInodePass_ok_iff uids r (rest.flatMap SquashfsInode.bytes) place).mpr ⟨ids, fits⟩
      obtain ⟨samePlace, number, size⟩ := squashfsInodePass_right uids r _ place passed
      subst size
      obtain ⟨others, behind⟩ := (ih (place + r.bytes.length)).mpr behind
      obtain ⟨more, right⟩ := (stepsTo_iff uids r rest place others).mpr ⟨(inode_stepsTo_iff fits rest).mpr stepsTo, behind⟩
      rw [(toInt32_eq_iff r.base.inodeNumber).mpr small] at number
      refine ⟨line :: others, (squashfsDoInodes_cons uids r _ place).mpr ⟨line, others, passed, more, rfl⟩, ?_⟩
      rw [List.map_cons, SquashfsInode.steps, right, samePlace, number]

end Run

end ImgEditor
