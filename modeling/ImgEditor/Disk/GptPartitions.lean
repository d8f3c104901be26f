import ImgEditor.Core.StringHelper
import ImgEditor.Disk.Gpt
import ImgEditor.Disk.GptText

namespace ImgEditor

open Storage CText

def GPT_DEF_NUM_PARTS : BitVec 32 := 56

/-- The sector behind an array of 128 entries at sector 2. -/
def GPT_DEF_FIRST_LBA : BitVec 64 := 34

/-- `expr_is_match`: what follows the key `s`. -/
def exprIsMatch (expr s : CString) : Option CString := if s.isPrefixOf expr then some (expr.drop s.length) else none

/-- One option of a part, as the chain of `gpt_parse_part` takes it. -/
inductive GptExpr where
  | uuidDisk (s : CString)
  | name (s : CString)
  | start (s : CString)
  | size (s : CString)
  | uuid (s : CString)
  | type (s : CString)
  | bootable
deriving DecidableEq

def gptExpr (expr : CString) : Option GptExpr :=
  (exprIsMatch expr (cstr "uuid_disk=")).map .uuidDisk <|> (exprIsMatch expr (cstr "name=")).map .name <|>
    (exprIsMatch expr (cstr "start=")).map .start <|> (exprIsMatch expr (cstr "size=")).map .size <|>
    (exprIsMatch expr (cstr "uuid=")).map .uuid <|> (exprIsMatch expr (cstr "type=")).map .type <|>
    (exprIsMatch expr (cstr "bootable")).map fun _ => .bootable

/-- The unit at the end of a number of bytes; there has to be one. -/
def lbaUnit : CString → Option Nat
  | [] => none
  | c :: _ =>
    if c = 107 ∨ c = 75 then some 10
    else if c = 109 ∨ c = 77 then some 20
    else if c = 103 ∨ c = 71 then some 30
    else none

def toPartitionLbaSize (s : CString) : Option (BitVec 64) :=
  (lbaUnit (strtoull 10 s).2).map fun unit => (BitVec.ofNat 64 (strtoull 10 s).1 <<< unit) / 512

/-- What the parser of a partitions text changes; `p->num_partition_entries` is the length of `partitions`. -/
structure GptWriteData where
  diskGuid : EfiGuid
  partitions : List GptEntry
  nextLba : BitVec 64
  activePartitionEntries : Nat
  diskTypeUid : EfiGuid

structure GptPartState where
  p : GptWriteData
  lbaStart : BitVec 64
  lbaSize : BitVec 64
  isDiskpart : Bool
  withType : Bool

def gptBootable : BitVec 64 := 4

def GptWriteData.update (p : GptWriteData) (entry : Nat) (f : GptEntry → GptEntry) : GptWriteData :=
  { p with partitions := p.partitions.modify entry f }

/-- The branches of `gpt_parse_part` for the entry of the part. -/
def gptParseExpr (entry : Nat) (st : GptPartState) : GptExpr → Option GptPartState
  | .uuidDisk s =>
    (sscanfUuid st.p.diskGuid s).map fun guid => { st with isDiskpart := false, p := { st.p with diskGuid := guid } }
  | .name s =>
    let p := st.p.update entry fun e => { e with partitionName := setGptPartitionName (Vector.replicate 36 0) s }
    some { st with p := { p with activePartitionEntries := p.activePartitionEntries + 1 } }
  | .start s => (toPartitionLbaSize s).map fun lba => { st with lbaStart := lba }
  | .size s => (toPartitionLbaSize s).map fun lba => { st with lbaSize := lba }
  | .uuid s =>
    (sscanfUuid (st.p.partitions.getD entry .zero).uniquePartitionGuid s).map fun guid =>
      { st with p := st.p.update entry fun e => { e with uniquePartitionGuid := guid } }
  | .type s =>
    (sscanfUuid (st.p.partitions.getD entry .zero).partitionTypeGuid s).map fun guid =>
      { st with p := st.p.update entry fun e => { e with partitionTypeGuid := guid } }
  | .bootable => some { st with p := st.p.update entry fun e => { e with attributes := gptBootable } }

def gptPlacePart (entry : Nat) (st : GptPartState) : Option GptWriteData :=
  if st.isDiskpart then
    if st.lbaSize = 0 then none
    else
      let p := if st.withType then st.p else st.p.update entry fun e => { e with partitionTypeGuid := st.p.diskTypeUid }
      let p := p.update entry fun e =>
        { e with startingLba := st.lbaStart, endingLba := st.lbaStart + st.lbaSize - 1 }
      some { p with nextLba := st.lbaStart + st.lbaSize }
  else some st.p

def gptParsePart (p : GptWriteData) (part : CString) : Option GptWriteData :=
  let entry := p.activePartitionEntries
  if entry ≥ p.partitions.length then none
  else do
    let argv := argvBufferSplitWithDelim (part.take 1023) [44] 32
    let st ← argv.foldlM (fun st expr => (gptExpr expr).bind (gptParseExpr entry st)) ⟨p, p.nextLba, 0, true, false⟩
    gptPlacePart entry st

def gptParsePartitions (p : GptWriteData) (partitions : CString) : Option GptWriteData :=
  let partitions := (exprIsMatch partitions (cstr "partitions=")).getD partitions
  (argvBufferSplitWithDelim (partitions.take 4095) [59] 128).foldlM gptParsePart p

/-- The options and the text of a run, with the values that options left out have. -/
structure WritePartitionsArg where
  flashSize : BitVec 64 := 0
  firstLba : BitVec 64 := GPT_DEF_FIRST_LBA
  lastLba : BitVec 64 := 0
  altLba : BitVec 64 := 0
  partEntryLba : BitVec 64 := GPT_DEF_PART_ENTRY_LBA
  numParts : BitVec 32 := GPT_DEF_NUM_PARTS
  diskTypeUid : Option CString := none
  partitions : CString

def writePartitionsArgAutofix (arg : WritePartitionsArg) : WritePartitionsArg :=
  if arg.flashSize = 0 then arg
  else
    { arg with
      lastLba := if arg.lastLba = 0 then arg.flashSize - GPT_DEF_FIRST_LBA else arg.lastLba
      altLba := if arg.altLba = 0 then arg.flashSize - 1 else arg.altLba }

/-- The default type, which is zero without `--disk-type-uid`. -/
def gptDiskTypeUid : Option CString → Option EfiGuid
  | none => some .zero
  | some s => sscanfUuid .zero s

/-- `gpt_write_partitions` behind its option parser, on zeroed private data: the file that it writes, or none
for a run that it refuses or that reads behind the entries. -/
def gptWritePartitions (arg : WritePartitionsArg) : Option Fd :=
  if arg.flashSize = 0 ∧ (arg.lastLba = 0 ∨ arg.altLba = 0) then none
  else do
    let diskTypeUid ← gptDiskTypeUid arg.diskTypeUid
    if arg.numParts.toInt > 128 then none
    else
      let arg := writePartitionsArgAutofix arg
      let p ← gptParsePartitions ⟨.zero, List.replicate GPT_MAX_NUM_PARTS.toNat .zero, arg.firstLba, 0, diskTypeUid⟩
        arg.partitions
      let hdr := { GptHeader.zero with
        diskGuid := p.diskGuid
        partitionEntryLba := arg.partEntryLba
        numPartitionEntries := arg.numParts
        firstUsableLba := arg.firstLba
        lastUsableLba := arg.lastLba
        alternateLba := arg.altLba }
      gptWrite hdr (encodeEntries p.partitions) Fd.created

end ImgEditor
