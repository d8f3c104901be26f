import ImgEditor.Fs.SquashfsRecords

namespace ImgEditor

open Storage

def SQUASHFS_NAME_LEN : Nat := 256
def SQUASHFS_DIR_COUNT : Nat := 256
def SQUASHFS_SOCKET_TYPE : Nat := 7

/-! The records of a directory table, as they are meant. -/

/-- An entry of a directory; its inode number is a signed difference, its type a basic one. -/
structure SquashfsDirEntry where
  offset : BitVec 16
  inodeNumber : BitVec 16
  entryType : Nat
  known : 1 ≤ entryType ∧ entryType ≤ SQUASHFS_SOCKET_TYPE
  name : List Byte
  named : 0 < name.length
  short : name.length ≤ SQUASHFS_NAME_LEN

def SquashfsDirEntry.bytes (e : SquashfsDirEntry) : List Byte :=
  leBytes 2 e.offset.toNat ++ leBytes 2 e.inodeNumber.toNat ++ leBytes 2 e.entryType ++ leBytes 2 (e.name.length - 1) ++ e.name

/-- A header with the entries behind it; its count is one less than theirs. -/
structure SquashfsDirectory where
  startBlock : BitVec 32
  inodeNumber : BitVec 32
  entries : List SquashfsDirEntry
  listed : 0 < entries.length
  short : entries.length ≤ SQUASHFS_DIR_COUNT

def SquashfsDirectory.bytes (d : SquashfsDirectory) : List Byte :=
  leBytes 4 (d.entries.length - 1) ++ leBytes 4 d.startBlock.toNat ++ leBytes 4 d.inodeNumber.toNat ++
    d.entries.flatMap SquashfsDirEntry.bytes

/-- The inode number of an entry, and the one that is printed: the difference is read without its sign. -/
def SquashfsDirectory.trueNumber (number : BitVec 32) (difference : BitVec 16) : Int := number.toNat + difference.toInt

def SquashfsDirectory.printedNumber (number : BitVec 32) (difference : BitVec 16) : Int :=
  toInt32 ((number.toNat + difference.toNat) % 2^32 : Nat)

section Steps

variable (numbered : BitVec 32 → BitVec 16 → Int)

def SquashfsDirEntry.steps (header : Nat) (number : BitVec 32) : Nat → List SquashfsDirEntry → List (Nat × Nat × Int)
  | _, [] => []
  | place, e :: rest =>
    (header, place, numbered number e.inodeNumber) :: SquashfsDirEntry.steps header number (place + e.bytes.length) rest

def SquashfsDirectory.steps : Nat → List SquashfsDirectory → List (Nat × Nat × Int)
  | _, [] => []
  | place, d :: rest =>
    SquashfsDirEntry.steps numbered place d.inodeNumber (place + 12) d.entries ++
      SquashfsDirectory.steps (place + d.bytes.length) rest

end Steps

def SquashfsDirLine.step (line : SquashfsDirLine) : Nat × Nat × Int := (line.header, line.place, line.inodeNumber)

def SquashfsDirsRight (directories : List SquashfsDirectory) : Prop :=
  ∃ lines, squashfsDoDirs 0 (directories.flatMap SquashfsDirectory.bytes) = .ok lines ∧
    lines.map SquashfsDirLine.step = SquashfsDirectory.steps SquashfsDirectory.trueNumber 0 directories

/-- No difference is negative, and the number is a positive `int`. -/
def SquashfsDirsFit (directories : List SquashfsDirectory) : Prop :=
  ∀ d ∈ directories, ∀ e ∈ d.entries, 0 ≤ e.inodeNumber.toInt ∧ d.inodeNumber.toNat + e.inodeNumber.toInt < 2^31

theorem printedNumber_eq_iff (number : BitVec 32) (difference : BitVec 16) :
    SquashfsDirectory.printedNumber number difference = SquashfsDirectory.trueNumber number difference ↔
      0 ≤ difference.toInt ∧ number.toNat + difference.toInt < 2^31 := by
  have small := number.isLt
  have short := difference.isLt
  unfold SquashfsDirectory.printedNumber SquashfsDirectory.trueNumber toInt32
  rw [Int.bmod_def, BitVec.toInt_eq_toNat_cond]
  split <;> split <;> omega

section Entries

variable (e : SquashfsDirEntry) (rest : List Byte)

theorem SquashfsDirEntry.bytes_length : e.bytes.length = 8 + e.name.length := by
  simp [bytes]
  omega

theorem entry_inodeNumber : leField e.bytes 2 2 = e.inodeNumber.toNat := by
  have small := e.inodeNumber.isLt
  simp [SquashfsDirEntry.bytes]
  omega

theorem entry_type : leField e.bytes 4 2 = e.entryType := by
  have bound : e.entryType ≤ 7 := e.known.2
  simp [SquashfsDirEntry.bytes]
  omega

theorem entry_size : leField e.bytes 6 2 + 1 = e.name.length := by
  have named := e.named
  have short : e.name.length ≤ 256 := e.short
  simp [SquashfsDirEntry.bytes]
  omega

theorem entry_name : (e.bytes ++ rest).drop 8 = e.name ++ rest := by
  rw [SquashfsDirEntry.bytes, List.append_assoc]
  exact List.drop_left' (by simp)

theorem entry_text : ∃ text, squashfsText (e.name ++ rest) e.name.length = .ok text := by
  apply (squashfsText_ok_iff _ _).mpr
  apply Or.inl
  rw [List.length_append]
  omega

variable (header place : Nat) (number : BitVec 32)

theorem squashfsDirEntries_succ (count : Nat) :
    ∃ offset name, squashfsDirEntries header number.toNat place (e.bytes ++ rest) (count + 1) = (do
      let (lines, behind) ← squashfsDirEntries header number.toNat (place + e.bytes.length) rest count
      return (⟨header, place, e.entryType, SquashfsDirectory.printedNumber number e.inodeNumber, offset, name⟩ :: lines, behind)) := by
  have size := e.bytes_length
  have known : squashfsInodeType e.entryType = .ok () := by
    apply if_pos
    have bound : 1 ≤ e.entryType ∧ e.entryType ≤ 7 := e.known
    exact ⟨bound.1, Nat.le_trans bound.2 (by decide)⟩
  have nameSize := entry_size e
  have precision : ((leField e.bytes 6 2 : Nat) : Int) + 1 = e.name.length := by omega
  obtain ⟨name, printed⟩ := entry_text e rest
  refine ⟨leField e.bytes 0 2, name, ?_⟩
  have long : 8 < (e.bytes ++ rest).length := by
    have named := e.named
    rw [List.length_append]
    omega
  rw [squashfsDirEntries, if_pos long]
  rw [inside_field rest (by omega), ok_bind, entry_type, known, ok_bind, inside_field rest (by omega), ok_bind, entry_inodeNumber,
    inside_field rest (by omega), ok_bind, inside_field rest (by omega), ok_bind, precision, entry_name, printed, ok_bind, nameSize,
    ← size, List.drop_left]
  rfl

theorem squashfsDirEntries_run (entries : List SquashfsDirEntry) :
    ∃ lines, squashfsDirEntries header number.toNat place (entries.flatMap SquashfsDirEntry.bytes ++ rest) entries.length =
        .ok (lines, place + (entries.flatMap SquashfsDirEntry.bytes).length, rest) ∧
      lines.map SquashfsDirLine.step = SquashfsDirEntry.steps SquashfsDirectory.printedNumber header number place entries := by
  induction entries generalizing place with
  | nil => exact ⟨[], rfl, rfl⟩
  | cons e entries ih =>
    obtain ⟨lines, listed, stepped⟩ := ih (place + e.bytes.length)
    obtain ⟨offset, name, first⟩ := squashfsDirEntries_succ e (entries.flatMap SquashfsDirEntry.bytes ++ rest) header place number entries.length
    rw [listed, ok_bind] at first
    rw [List.flatMap_cons, List.append_assoc, List.length_cons, first, List.length_append, ← Nat.add_assoc]
    refine ⟨_, rfl, ?_⟩
    rw [List.map_cons, stepped, SquashfsDirEntry.steps, SquashfsDirLine.step]

end Entries

section Directories

theorem squashfsDoDirs_step {place count inodeNumber behind : Nat} {tail left : List Byte} {lines : List SquashfsDirLine}
    (long : 20 < tail.length) (counted : squashfsField tail 0 4 = .ok count) (numbered : squashfsField tail 8 4 = .ok inodeNumber)
    (listed : squashfsDirEntries place inodeNumber (place + 12) (tail.drop 12) ((count + 1) % 2^32) = .ok (lines, behind, left)) :
    squashfsDoDirs place tail = (do
      let rest ← squashfsDoDirs behind left
      return lines ++ rest) := by
  rw [squashfsDoDirs, if_pos long, counted, ok_bind, numbered, ok_bind]
  split
  · rename_i failed
    rw [listed] at failed
    cases failed
  · rename_i same
    rw [listed] at same
    cases same
    rfl

variable (d : SquashfsDirectory)

def SquashfsDirectory.header : List Byte :=
  leBytes 4 (d.entries.length - 1) ++ leBytes 4 d.startBlock.toNat ++ leBytes 4 d.inodeNumber.toNat

theorem header_length : d.header.length = 12 := by
  simp [SquashfsDirectory.header]

theorem header_count : leField d.header 0 4 + 1 = d.entries.length := by
  have listed := d.listed
  have short : d.entries.length ≤ 256 := d.short
  simp [SquashfsDirectory.header]
  omega

theorem header_inodeNumber : leField d.header 8 4 = d.inodeNumber.toNat := by
  have small := d.inodeNumber.isLt
  simp [SquashfsDirectory.header]
  omega

/-- A header and an entry are more than what the loop goes on for. -/
theorem directory_long : 8 < (d.entries.flatMap SquashfsDirEntry.bytes).length := by
  have listed := d.listed
  cases entries : d.entries with
  | nil =>
    rw [entries] at listed
    cases listed
  | cons e rest =>
    have named := e.named
    rw [List.flatMap_cons, List.length_append, e.bytes_length]
    omega

theorem squashfsDoDirs_cons (rest : List Byte) (place : Nat) :
    ∃ lines, squashfsDoDirs place (d.bytes ++ rest) = (do
        let others ← squashfsDoDirs (place + d.bytes.length) rest
        return lines ++ others) ∧
      lines.map SquashfsDirLine.step =
        SquashfsDirEntry.steps SquashfsDirectory.printedNumber place d.inodeNumber (place + 12) d.entries := by
  have fixed := header_length d
  have counted := header_count d
  have short : d.entries.length ≤ 256 := d.short
  have whole : d.bytes ++ rest = d.header ++ (d.entries.flatMap SquashfsDirEntry.bytes ++ rest) := by
    rw [SquashfsDirectory.bytes, ← SquashfsDirectory.header, List.append_assoc]
  have size : place + d.bytes.length = place + 12 + (d.entries.flatMap SquashfsDirEntry.bytes).length := by
    rw [SquashfsDirectory.bytes, ← SquashfsDirectory.header, List.length_append, fixed, Nat.add_assoc]
  obtain ⟨lines, listed, stepped⟩ := squashfsDirEntries_run rest place (place + 12) d.inodeNumber d.entries
  refine ⟨lines, ?_, stepped⟩
  rw [size, whole]
  apply squashfsDoDirs_step
  · have long := directory_long d
    rw [List.length_append, List.length_append]
    omega
  · exact inside_field _ (by omega)
  · rw [inside_field _ (by omega), header_inodeNumber]
  · rw [List.drop_left' fixed, counted, Nat.mod_eq_of_lt (by omega), listed]

/-- Every directory table is stepped through to its end. -/
theorem squashfsDoDirs_run (directories : List SquashfsDirectory) (place : Nat) :
    ∃ lines, squashfsDoDirs place (directories.flatMap SquashfsDirectory.bytes) = .ok lines ∧
      lines.map SquashfsDirLine.step = SquashfsDirectory.steps SquashfsDirectory.printedNumber place directories := by
  induction directories generalizing place with
  | nil =>
    refine ⟨[], ?_, rfl⟩
    rw [squashfsDoDirs]
    rfl
  | cons d directories ih =>
    obtain ⟨others, more, behind⟩ := ih (place + d.bytes.length)
    obtain ⟨lines, listed, stepped⟩ := squashfsDoDirs_cons d (directories.flatMap SquashfsDirectory.bytes) place
    rw [more, ok_bind] at listed
    refine ⟨lines ++ others, listed, ?_⟩
    rw [List.map_append, stepped, behind]
    rfl

theorem SquashfsDirEntry.steps_eq_iff (header : Nat) (number : BitVec 32) (entries : List SquashfsDirEntry) (place : Nat) :
    SquashfsDirEntry.steps SquashfsDirectory.printedNumber header number place entries =
        SquashfsDirEntry.steps SquashfsDirectory.trueNumber header number place entries ↔
      ∀ e ∈ entries, 0 ≤ e.inodeNumber.toInt ∧ number.toNat + e.inodeNumber.toInt < 2^31 := by
  induction entries generalizing place with
  | nil => exact iff_of_true (by rw [SquashfsDirEntry.steps, SquashfsDirEntry.steps]) nofun
  | cons e entries ih =>
    rw [SquashfsDirEntry.steps, SquashfsDirEntry.steps, List.cons.injEq, ih, List.forall_mem_cons, ← printedNumber_eq_iff]
    apply and_congr_left
    intro _
    simp

theorem SquashfsDirEntry.steps_length (numbered : BitVec 32 → BitVec 16 → Int) (header : Nat) (number : BitVec 32)
    (entries : List SquashfsDirEntry) (place : Nat) :
    (SquashfsDirEntry.steps numbered header number place entries).length = entries.length := by
  induction entries generalizing place with
  | nil => rfl
  | cons e entries ih => rw [SquashfsDirEntry.steps, List.length_cons, ih, List.length_cons]

theorem SquashfsDirectory.steps_eq_iff (directories : List SquashfsDirectory) (place : Nat) :
    SquashfsDirectory.steps SquashfsDirectory.printedNumber place directories =
        SquashfsDirectory.steps SquashfsDirectory.trueNumber place directories ↔ SquashfsDirsFit directories := by
  induction directories generalizing place with
  | nil => exact iff_of_true (by rw [SquashfsDirectory.steps, SquashfsDirectory.steps]) nofun
  | cons d directories ih =>
    rw [SquashfsDirectory.steps, SquashfsDirectory.steps, SquashfsDirsFit, List.forall_mem_cons, ← SquashfsDirsFit, ← ih,
      ← SquashfsDirEntry.steps_eq_iff place]
    constructor
    · intro same
      exact List.append_inj same (by rw [SquashfsDirEntry.steps_length, SquashfsDirEntry.steps_length])
    · rintro ⟨first, others⟩
      rw [first, others]

/-- The numbers of a directory table are right just where no difference is negative. -/
theorem squashfsDoDirs_right_iff (directories : List SquashfsDirectory) : SquashfsDirsRight directories ↔ SquashfsDirsFit directories := by
  obtain ⟨lines, listed, stepped⟩ := squashfsDoDirs_run directories 0
  rw [← SquashfsDirectory.steps_eq_iff directories 0, ← stepped]
  constructor
  · rintro ⟨others, same, right⟩
    rw [listed] at same
    rw [Except.ok.inj same, right]
  · intro right
    exact ⟨lines, listed, right⟩

/-- Both tables are stepped through record by record, with the numbers that their records have. -/
def SquashfsTablesRight (uids : List SquashfsPoint) (records : List SquashfsInode) (directories : List SquashfsDirectory) : Prop :=
  SquashfsInodesRight uids records ∧ SquashfsDirsRight directories

theorem squashfsTables_right_iff (uids : List SquashfsPoint) (records : List SquashfsInode) (directories : List SquashfsDirectory) :
    SquashfsTablesRight uids records directories ↔ SquashfsInodesFit uids records ∧ SquashfsDirsFit directories :=
  and_congr (squashfsDoInodes_right_iff uids records 0) (squashfsDoDirs_right_iff directories)

/-- A file with one block size, in front of the root directory, which has it as its only entry. -/
def squashfsFile : SquashfsInode := ⟨⟨0x1a4, 0, 0, 0, 1⟩, .reg 96 0xffffffff 0 16 [16]⟩

def squashfsRoot : SquashfsInode := ⟨⟨0x1ed, 0, 0, 0, 2⟩, .dir 0 2 24 0 3⟩

def squashfsRootDirectory : SquashfsDirectory where
  startBlock := 0
  inodeNumber := 2
  entries := [⟨0, 0xffff, 2, by decide, [0x61], by decide, by decide⟩]
  listed := by decide
  short := by decide

theorem squashfsTables_file : ¬ SquashfsTablesRight [⟨[0, 0, 0, 0], 0⟩] [squashfsFile, squashfsRoot] [squashfsRootDirectory] := by
  rintro ⟨inodes, _⟩
  obtain ⟨_, _, stepsTo, _⟩ := (squashfsDoInodes_right_iff _ _ 0).mp inodes
  simp [SquashfsBody.StepsTo, squashfsFile] at stepsTo

end Directories

end ImgEditor
