import ImgEditor.Core.Dd
import ImgEditor.Storage.Walk

namespace ImgEditor

open Storage

def SQUASHFS_METADATA_SIZE : Nat := 8192
def SQUASHFS_COMPRESSED_BIT : Nat := 0x8000

/-- A size of zero stands for the bit itself. -/
def squashfsCompressedSize (header : Nat) : Nat :=
  if header % SQUASHFS_COMPRESSED_BIT = 0 then SQUASHFS_COMPRESSED_BIT else header % SQUASHFS_COMPRESSED_BIT

/-- What `squashfs_read_metablock` stores, and the descriptor behind it. -/
structure SquashfsMetablock where
  payload : List Byte
  nextOffset : Nat
  fd : Fd

/-- `squashfs_read_metablock`; nobody looks at what `fileseek` returns. -/
def squashfsReadMetablock (fd : Fd) (offset bufsz : Nat) : Option SquashfsMetablock := do
  let fd := fd.fileseek offset
  let bytes ← fileread fd 2
  let header := leNumber bytes
  if header < SQUASHFS_COMPRESSED_BIT then none
  else
    let sz := squashfsCompressedSize header
    if sz > SQUASHFS_METADATA_SIZE then none
    else
      let fd := { fd with pos := fd.pos + 2 }
      let payload ← fileread fd (min sz bufsz)
      some ⟨payload, (offset + sz + 2) % 2^64, { fd with pos := fd.pos + min sz bufsz }⟩

/-- `squashfs_alloc_metablocks` at the head of its loop, behind its last pass, or with `NULL`. `buf` are the bytes that
are stored, `bufsz` is the size for the next `realloc`. -/
inductive SquashfsMetablocks where
  | loop (fd : Fd) (offset bufsz blockCount totalBytes : Nat) (buf : List Byte)
  | done (fd : Fd) (totalBytes : Nat) (buf : List Byte)
  | null

section Loop

variable (limitOffset limitMaxBlocks : Nat)

def MetaLimit (offset blockCount : Nat) : Prop :=
  (0 < limitMaxBlocks ∧ limitMaxBlocks ≤ blockCount) ∨ (0 < limitOffset ∧ limitOffset ≤ offset)

instance (offset blockCount : Nat) : Decidable (MetaLimit limitOffset limitMaxBlocks offset blockCount) :=
  inferInstanceAs (Decidable (_ ∨ _))

def metaChunk (offset : Nat) : Nat :=
  if 0 < limitOffset then min (limitOffset - offset) SQUASHFS_METADATA_SIZE else SQUASHFS_METADATA_SIZE

def squashfsMetablocksNext : SquashfsMetablocks → Option SquashfsMetablocks
  | .loop fd offset bufsz blockCount totalBytes buf =>
    if MetaLimit limitOffset limitMaxBlocks offset blockCount then some (.done fd totalBytes buf)
    else
      match squashfsReadMetablock fd offset (metaChunk limitOffset offset) with
      | none => some .null
      | some block =>
        some (.loop block.fd block.nextOffset (bufsz + SQUASHFS_METADATA_SIZE) (blockCount + 1)
          (totalBytes + block.payload.length) (buf ++ block.payload))
  | .done _ _ _ | .null => none

end Loop

def squashfsMetablocksStart (fd : Fd) (offset : Nat) : SquashfsMetablocks := .loop fd offset SQUASHFS_METADATA_SIZE 0 0 []

def MetablocksVisits (fd : Fd) (offset limitOffset limitMaxBlocks : Nat) : SquashfsMetablocks → Prop :=
  Visits (squashfsMetablocksNext limitOffset limitMaxBlocks) (squashfsMetablocksStart fd offset)

/-! ## Chains of blocks -/

namespace Metadata

def blockSize (f : File) (place : Nat) : Option Nat :=
  if place + 2 ≤ f.size then
    let header := leNumber (f.slice place 2)
    if 0x8000 < header ∧ header ≤ 0x8000 + SQUASHFS_METADATA_SIZE then some (header - 0x8000) else none
  else none

/-- A payload is cut to the distance from its header to the limit. -/
def cut (limitOffset offset size : Nat) : Nat := if 0 < limitOffset then min size (limitOffset - offset) else size

/-- The payloads from a block on, until a limit is reached. -/
inductive Chain (f : File) (start limitOffset limitMaxBlocks : Nat) : Nat → Nat → List Byte → Prop
  | limit {offset count : Nat} (reached : MetaLimit limitOffset limitMaxBlocks offset count) :
    Chain f start limitOffset limitMaxBlocks offset count []
  | block {offset count size : Nat} {rest : List Byte} (more : ¬ MetaLimit limitOffset limitMaxBlocks offset count)
    (header : blockSize f (start + offset) = some size)
    (inside : start + offset + 2 + cut limitOffset offset size ≤ f.size)
    (chain : Chain f start limitOffset limitMaxBlocks (offset + 2 + size) (count + 1) rest) :
    Chain f start limitOffset limitMaxBlocks offset count
      (f.slice (start + offset + 2) (cut limitOffset offset size) ++ rest)

end Metadata

/-- The loop ends, each block fits at its position, and the result is the chain. -/
structure MetablocksRight (fd : Fd) (offset limitOffset limitMaxBlocks : Nat) : Prop where
  ends : Ends (squashfsMetablocksNext limitOffset limitMaxBlocks) (squashfsMetablocksStart fd offset)
  fits : ∀ fd' offset' bufsz blockCount totalBytes buf block,
    MetablocksVisits fd offset limitOffset limitMaxBlocks (.loop fd' offset' bufsz blockCount totalBytes buf) →
      squashfsReadMetablock fd' offset' (metaChunk limitOffset offset') = some block →
        totalBytes + block.payload.length ≤ bufsz
  chain : ∀ fd' totalBytes buf, MetablocksVisits fd offset limitOffset limitMaxBlocks (.done fd' totalBytes buf) →
    Metadata.Chain fd.file fd.start limitOffset limitMaxBlocks offset 0 buf ∧ totalBytes = buf.length

/-- `lseek64` takes the first offset, if it is sought at all. -/
def MetablocksFits (fd : Fd) (offset limitOffset : Nat) : Prop :=
  fd.start + offset < 2^63 ∨ (0 < limitOffset ∧ limitOffset ≤ offset)

instance (fd : Fd) (offset limitOffset : Nat) : Decidable (MetablocksFits fd offset limitOffset) :=
  inferInstanceAs (Decidable (_ ∨ _))

end ImgEditor
