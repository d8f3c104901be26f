import ImgEditor.Core.CInt
import ImgEditor.Fs.SquashfsPoints
import ImgEditor.Storage.Checked

namespace ImgEditor

open Storage

/-- A command returns an error, or it uses bytes outside of a table. -/
inductive SquashfsFail where
  | error
  | fault
deriving DecidableEq

abbrev SquashfsM := Except SquashfsFail

def squashfsField (tail : List Byte) (offset width : Nat) : SquashfsM Nat :=
  if offset + width ≤ tail.length then .ok (leField tail offset width) else .error .fault

/-- What `printf` prints for `%.*s`; it looks for the NUL up to the precision, or without an end for a negative one. -/
def squashfsText (bytes : List Byte) (precision : Int) : SquashfsM (List Byte) :=
  let text := bytes.takeWhile (· ≠ 0)
  if 0 ≤ precision ∧ precision ≤ text.length then .ok (text.take precision.toNat)
  else if text.length < bytes.length then .ok text
  else .error .fault

def SQUASHFS_DIR_TYPE : Nat := 1
def SQUASHFS_REG_TYPE : Nat := 2
def SQUASHFS_SYMLINK_TYPE : Nat := 3
def SQUASHFS_LDIR_TYPE : Nat := 8
def SQUASHFS_LREG_TYPE : Nat := 9
def SQUASHFS_LSOCKET_TYPE : Nat := 14

/-- `snprintf_squashfs_inode_type` knows the types from 1 to 14. -/
def squashfsInodeType (inodeType : Nat) : SquashfsM Unit :=
  if 1 ≤ inodeType ∧ inodeType ≤ SQUASHFS_LSOCKET_TYPE then .ok () else .error .error

structure SquashfsDirIndexText where
  index : Nat
  startBlock : Nat
  size : Nat
  name : List Byte
deriving DecidableEq

inductive SquashfsInodeText where
  | reg (offset startBlock fragment fileSize : Nat)
  | dir (offset startBlock nlink fileSize parentInode : Nat)
  | symlink (symlink : List Byte)
  | lreg (offset startBlock nlink fragment fileSize : Nat)
  | ldir (offset iCount parentInode : Nat) (index : List SquashfsDirIndexText)
deriving DecidableEq

structure SquashfsBaseText where
  inodeType : Nat
  mode : Nat
  uid : Int
  gid : Int
  inodeNumber : Int
deriving DecidableEq

structure SquashfsInodeLine where
  place : Nat
  base : SquashfsBaseText
  text : SquashfsInodeText
deriving DecidableEq

section Inodes

variable (uids : List SquashfsPoint)

/-- The ids are taken from the first block; `max_idx` is a count of bytes. -/
def squashfsPrintBaseInode (tail : List Byte) : SquashfsM SquashfsBaseText := do
  let uid ← squashfsField tail 4 2
  let gid ← squashfsField tail 6 2
  match uids with
  | [] => throw .fault
  | idPoint :: _ =>
    let maxIdx := if idPoint.buf.length < 4 then 2^64 + idPoint.buf.length - 4 else idPoint.buf.length - 4
    let inodeType ← squashfsField tail 0 2
    squashfsInodeType inodeType
    refuseIf .error (uid > maxIdx ∨ gid > maxIdx)
    let mode ← squashfsField tail 2 2
    let uid ← squashfsField idPoint.buf (4 * uid) 4
    let gid ← squashfsField idPoint.buf (4 * gid) 4
    let inodeNumber ← squashfsField tail 12 4
    return ⟨inodeType, mode, toInt32 uid, toInt32 gid, toInt32 inodeNumber⟩

/-- The loop over the index of a directory: `ldir.index[i]` counts in structures without their names. -/
def squashfsLdirIndex (tail : List Byte) (i : Nat) : Nat → SquashfsM (List SquashfsDirIndexText × Nat)
  | 0 => return ([], 0)
  | count + 1 => do
    let index ← squashfsField tail (40 + 12 * i) 4
    let startBlock ← squashfsField tail (40 + 12 * i + 4) 4
    let size ← squashfsField tail (40 + 12 * i + 8) 4
    let name ← squashfsText (tail.drop (40 + 12 * i + 12)) (toInt32 ((size + 1) % 2^32 : Nat))
    let (rest, thisSize) ← squashfsLdirIndex tail (i + 1) count
    return (⟨index, startBlock, size, name⟩ :: rest, (size + 1) % 2^32 + 12 + thisSize)

/-- The switch of `squashfs_do_inodes`: what is printed, and `this_size`. -/
def squashfsInodeText (tail : List Byte) (inodeType : Nat) : SquashfsM (SquashfsInodeText × Nat) :=
  if inodeType = SQUASHFS_REG_TYPE then do
    let offset ← squashfsField tail 24 4
    let startBlock ← squashfsField tail 16 4
    let fragment ← squashfsField tail 20 4
    let fileSize ← squashfsField tail 28 4
    return (.reg offset startBlock fragment fileSize, 32)
  else if inodeType = SQUASHFS_DIR_TYPE then do
    let offset ← squashfsField tail 26 2
    let startBlock ← squashfsField tail 16 4
    let nlink ← squashfsField tail 20 4
    let fileSize ← squashfsField tail 24 2
    let parentInode ← squashfsField tail 28 4
    return (.dir offset startBlock nlink fileSize parentInode, 32)
  else if inodeType = SQUASHFS_SYMLINK_TYPE then do
    let symlinkSize ← squashfsField tail 20 4
    let symlink ← squashfsText (tail.drop 24) (toInt32 symlinkSize)
    return (.symlink symlink, 24 + symlinkSize)
  else if inodeType = SQUASHFS_LREG_TYPE then do
    let offset ← squashfsField tail 48 4
    let startBlock ← squashfsField tail 16 8
    let nlink ← squashfsField tail 40 4
    let fragment ← squashfsField tail 44 4
    let fileSize ← squashfsField tail 24 8
    return (.lreg offset (startBlock % 2^32) nlink fragment (fileSize % 2^32), 56)
  else if inodeType = SQUASHFS_LDIR_TYPE then do
    let offset ← squashfsField tail 34 2
    let iCount ← squashfsField tail 32 2
    let parentInode ← squashfsField tail 28 4
    let (index, indexSize) ← squashfsLdirIndex tail 0 iCount
    return (.ldir offset iCount parentInode index, 40 + indexSize)
  else throw .error

def squashfsInodePass (place : Nat) (tail : List Byte) : SquashfsM (SquashfsInodeLine × Nat) := do
  let base ← squashfsPrintBaseInode uids tail
  let (text, thisSize) ← squashfsInodeText tail base.inodeType
  return (⟨place, base, text⟩, thisSize)

/-- `squashfs_do_inodes` from an inode on; what is left is more than a base inode. -/
def squashfsDoInodes (place : Nat) (tail : List Byte) : SquashfsM (List SquashfsInodeLine) :=
  if 16 < tail.length then do
    let (line, thisSize) ← squashfsInodePass uids place tail
    if thisSize = 0 then throw .error
    else
      let rest ← squashfsDoInodes (place + thisSize) (tail.drop thisSize)
      return line :: rest
  else return []
termination_by tail.length
decreasing_by
  rw [List.length_drop]
  omega

end Inodes

structure SquashfsDirLine where
  header : Nat
  place : Nat
  entryType : Nat
  inodeNumber : Int
  offset : Nat
  name : List Byte
deriving DecidableEq

/-- The loop over the entries behind a header; `place` is that of the next entry. -/
def squashfsDirEntries (header inodeNumber : Nat) (place : Nat) (tail : List Byte) :
    Nat → SquashfsM (List SquashfsDirLine × Nat × List Byte)
  | 0 => return ([], place, tail)
  | count + 1 =>
    if 8 < tail.length then do
      let entryType ← squashfsField tail 4 2
      squashfsInodeType entryType
      let delta ← squashfsField tail 2 2
      let offset ← squashfsField tail 0 2
      let size ← squashfsField tail 6 2
      let name ← squashfsText (tail.drop 8) (size + 1)
      let (rest, behind) ← squashfsDirEntries header inodeNumber (place + (8 + (size + 1))) (tail.drop (8 + (size + 1))) count
      return (⟨header, place, entryType, toInt32 ((inodeNumber + delta) % 2^32 : Nat), offset, name⟩ :: rest, behind)
    else return ([], place, tail)

theorem squashfsDirEntries_length {header inodeNumber place count : Nat} {tail behind : List Byte}
    {lines : List SquashfsDirLine} {at_ : Nat}
    (listed : squashfsDirEntries header inodeNumber place tail count = .ok (lines, at_, behind)) :
    behind.length ≤ tail.length := by
  induction count generalizing place tail lines with
  | zero =>
    obtain ⟨_, rest⟩ := Prod.mk.inj (Except.ok.inj listed)
    rw [(Prod.mk.inj rest).2]
  | succ count ih =>
    rw [squashfsDirEntries] at listed
    split at listed
    · obtain ⟨entryType, _, listed⟩ := bind_ok_iff.mp listed
      obtain ⟨_, _, listed⟩ := bind_ok_iff.mp listed
      obtain ⟨delta, _, listed⟩ := bind_ok_iff.mp listed
      obtain ⟨offset, _, listed⟩ := bind_ok_iff.mp listed
      obtain ⟨size, _, listed⟩ := bind_ok_iff.mp listed
      obtain ⟨name, _, listed⟩ := bind_ok_iff.mp listed
      obtain ⟨⟨rest, last⟩, more, listed⟩ := bind_ok_iff.mp listed
      obtain ⟨_, same⟩ := Prod.mk.inj (Except.ok.inj listed)
      rw [same] at more
      have shorter := ih more
      rw [List.length_drop] at shorter
      omega
    · obtain ⟨_, rest⟩ := Prod.mk.inj (Except.ok.inj listed)
      rw [(Prod.mk.inj rest).2]

def squashfsDoDirs (place : Nat) (tail : List Byte) : SquashfsM (List SquashfsDirLine) :=
  if 20 < tail.length then do
    let count ← squashfsField tail 0 4
    let inodeNumber ← squashfsField tail 8 4
    match _listed : squashfsDirEntries place inodeNumber (place + 12) (tail.drop 12) ((count + 1) % 2^32) with
    | .error fail => throw fail
    | .ok (lines, behind, left) =>
      let rest ← squashfsDoDirs behind left
      return lines ++ rest
  else return []
termination_by tail.length
decreasing_by
  have shorter := squashfsDirEntries_length _listed
  rw [List.length_drop] at shorter
  omega

end ImgEditor
