import ImgEditor.Core.Dd
import ImgEditor.Storage.Record

namespace ImgEditor

open Storage

/-- A call returns an error, or it uses bytes behind the end of a buffer. -/
inductive XfsFail where
  | error
  | fault
deriving DecidableEq

abbrev XfsM := Except XfsFail

def beField (buf : List Byte) (offset width : Nat) : XfsM Nat :=
  if offset + width ≤ buf.length then .ok (leNumber (field buf offset width).reverse) else .error .fault

def XFS_SB_MAGIC : Nat := 0x58465342
def XFS_AGF_MAGIC : Nat := 0x58414746
def XFS_AGI_MAGIC : Nat := 0x58414749
def XFS_AGFL_MAGIC : Nat := 0x5841464c
def XFS_ABTB_MAGIC : Nat := 0x41425442
def XFS_ABTB_CRC_MAGIC : Nat := 0x41423342
def XFS_ABTC_MAGIC : Nat := 0x41425443
def XFS_ABTC_CRC_MAGIC : Nat := 0x41423343
def XFS_IBT_MAGIC : Nat := 0x49414254
def XFS_IBT_CRC_MAGIC : Nat := 0x49414233
def XFS_FIBT_MAGIC : Nat := 0x46494254
def XFS_FIBT_CRC_MAGIC : Nat := 0x46494233
def XFS_REFC_CRC_MAGIC : Nat := 0x52334643

def sizeofXfsDsb : Nat := 264

/-! Fields of `struct xfs_dsb`, `struct xfs_agf` and `struct xfs_agi`. -/

def sbDblocks (sb : List Byte) : XfsM Nat := beField sb 8 8
def agfBnoRoot (agf : List Byte) : XfsM Nat := beField agf 16 4
def agfCntRoot (agf : List Byte) : XfsM Nat := beField agf 20 4
def agfFreeblks (agf : List Byte) : XfsM Nat := beField agf 52 4
def agfRefcountRoot (agf : List Byte) : XfsM Nat := beField agf 88 4
def agiRoot (agi : List Byte) : XfsM Nat := beField agi 20 4
def agiFreeRoot (agi : List Byte) : XfsM Nat := beField agi 328 4

structure XfsAg where
  sectorBufs : List (List Byte)
  bnobt : Option (List Byte)
  cntbt : Option (List Byte)
  refcountbt : Option (List Byte)
  inobt : Option (List Byte)
  finobt : Option (List Byte)

namespace XfsAg

def sb (ag : XfsAg) : List Byte := ag.sectorBufs.getD 0 []
def agf (ag : XfsAg) : List Byte := ag.sectorBufs.getD 1 []
def agi (ag : XfsAg) : List Byte := ag.sectorBufs.getD 2 []

def calloc (sectorSize : Nat) : XfsAg :=
  ⟨List.replicate 4 (List.replicate sectorSize 0#8), none, none, none, none, none⟩

end XfsAg

structure XfsEditor where
  fd : Fd
  ags : List XfsAg
  agCount : Nat
  agBlocks : Nat
  blockSize : Nat
  sectorSize : Nat
  inodePerBlock : Nat
  inodeSize : Nat

/-- `sb_check_logsize`; a shift of `1ul` counts modulo 64. -/
def sbCheckLogsize (sb : List Byte) (name width logname : Nat) : XfsM Unit := do
  let size ← beField sb name width
  let log ← beField sb logname 1
  if size ≠ 2 ^ (log % 64) then throw .error

def xfsCheckSb (sb : List Byte) : XfsM Unit := do
  if (← beField sb 0 4) ≠ XFS_SB_MAGIC then throw .error
  sbCheckLogsize sb 4 4 120
  sbCheckLogsize sb 102 2 121
  sbCheckLogsize sb 104 2 122
  sbCheckLogsize sb 106 2 123

def xfsInitAllocAgs (fd : Fd) (primarySb : List Byte) : XfsM XfsEditor := do
  let sectorSize ← beField primarySb 102 2
  let blockSize ← beField primarySb 4 4
  let inodeSize ← beField primarySb 104 2
  let inodePerBlock ← beField primarySb 106 2
  let agCount ← beField primarySb 88 4
  let agBlocks ← beField primarySb 84 4
  return ⟨fd, List.replicate agCount (.calloc sectorSize), agCount, agBlocks, blockSize, sectorSize, inodePerBlock,
    inodeSize⟩

def isGoodMagic (m expected : Nat) : Bool := expected ≠ 0 && m = expected

/-- The block number is an unsigned int before it becomes an unsigned long. -/
def xfsAllocReadBt (xfs : XfsEditor) (agIdx blkoff magic1 magic2 : Nat) : XfsM (List Byte) := do
  let blk := (agIdx * xfs.agBlocks + blkoff) % 2^32
  match fileread (xfs.fd.fileseek (blk * xfs.blockSize)) xfs.blockSize with
  | none => throw .error
  | some blkbuf =>
    let magic ← beField blkbuf 0 4
    if isGoodMagic magic magic1 || isGoodMagic magic magic2 then return blkbuf else throw .error

def agTryLoadBt (xfs : XfsEditor) (i : Nat) (root : XfsM Nat) (magic1 magic2 : Nat) : XfsM (Option (List Byte)) := do
  let root ← root
  if root = 0 then return none
  else return some (← xfsAllocReadBt xfs i root magic1 magic2)

def xfsMagics : List Nat := [XFS_SB_MAGIC, XFS_AGF_MAGIC, XFS_AGI_MAGIC, XFS_AGFL_MAGIC]

/-- The sectors from one on. A wrong magic goes to `done` with `ret` still 0 from the read: the flag is false. -/
def xfsLoadSectors (xfs : XfsEditor) (fd : Fd) (sector : Nat) : List Nat → XfsM (List (List Byte) × Bool)
  | [] => return ([], true)
  | expected :: rest => do
    match fileread fd xfs.sectorSize with
    | none => throw .error
    | some buf =>
      let fd := { fd with pos := fd.pos + xfs.sectorSize }
      if sector = 0 then
        xfsCheckSb buf
        let (bufs, good) ← xfsLoadSectors xfs fd (sector + 1) rest
        return (buf :: bufs, good)
      else if (← beField buf 0 4) ≠ expected then
        return (buf :: rest.map fun _ => List.replicate xfs.sectorSize 0#8, false)
      else
        let (bufs, good) ← xfsLoadSectors xfs fd (sector + 1) rest
        return (buf :: bufs, good)

/-- One pass of the loop of `xfs_load_ags`; the byte offset is a product of unsigned ints. -/
def xfsLoadAg (xfs : XfsEditor) (i : Nat) : XfsM (XfsAg × Bool) := do
  let offset := i * xfs.agBlocks * xfs.blockSize % 2^32
  let (bufs, good) ← xfsLoadSectors xfs (xfs.fd.fileseek offset) 0 xfsMagics
  let ag : XfsAg := ⟨bufs, none, none, none, none, none⟩
  if good = false then return (ag, false)
  else
    let bnobt ← agTryLoadBt xfs i (agfBnoRoot ag.agf) XFS_ABTB_MAGIC XFS_ABTB_CRC_MAGIC
    let cntbt ← agTryLoadBt xfs i (agfCntRoot ag.agf) XFS_ABTC_MAGIC XFS_ABTC_CRC_MAGIC
    let refcountbt ← agTryLoadBt xfs i (agfRefcountRoot ag.agf) XFS_REFC_CRC_MAGIC 0
    let inobt ← agTryLoadBt xfs i (agiRoot ag.agi) XFS_IBT_MAGIC XFS_IBT_CRC_MAGIC
    let finobt ← agTryLoadBt xfs i (agiFreeRoot ag.agi) XFS_FIBT_MAGIC XFS_FIBT_CRC_MAGIC
    return (⟨bufs, bnobt, cntbt, refcountbt, inobt, finobt⟩, true)

def xfsLoadAgs (xfs : XfsEditor) (i : Nat) : Nat → XfsM (List XfsAg)
  | 0 => return []
  | count + 1 => do
    let (ag, good) ← xfsLoadAg xfs i
    if good then return ag :: (← xfsLoadAgs xfs (i + 1) count)
    else return ag :: List.replicate count (.calloc xfs.sectorSize)

def xfsDetect (fd : Fd) : XfsM XfsEditor := do
  match fileread fd sizeofXfsDsb with
  | none => throw .error
  | some primarySb =>
    xfsCheckSb primarySb
    let xfs ← xfsInitAllocAgs fd primarySb
    let ags ← xfsLoadAgs xfs 0 xfs.agCount
    return { xfs with ags := ags }

end ImgEditor
