import ImgEditor.Disk.GptFind
import ImgEditor.Disk.GptPartitions

namespace ImgEditor

open Storage CText

def partitionStringLbaSize (lba : BitVec 64) : CString :=
  let bytes := (lba2sz64 lba).toNat
  if bytes < 2^10 then decimal bytes
  else if bytes < 2^20 then decimal (bytes / 2^10) ++ cstr "K"
  else if bytes ≤ 2^30 ∨ bytes % 2^30 ≠ 0 then decimal (bytes / 2^20) ++ cstr "M"
  else decimal (bytes / 2^30) ++ cstr "G"

def gptEntryPlace (withStart : Bool) (entry : GptEntry) : CString :=
  cstr "name=" ++ gptPartitionNameToChar entry.partitionName 128 ++ cstr "," ++
    (if withStart then cstr "start=" ++ partitionStringLbaSize entry.startingLba ++ cstr "," else []) ++
    cstr "size=" ++ partitionStringLbaSize (entry.endingLba - entry.startingLba + 1) ++ cstr "," ++
    (if entry.attributes.getLsbD 2 then cstr "bootable," else [])

/-- What is printed for an entry; no text of one reaches the size of its buffer. -/
def gptEntryDesc (withStart sameDiskTypeUid : Bool) (entry : GptEntry) : CString :=
  gptEntryPlace withStart entry ++ cstr "uuid=" ++ snprintfUuid entry.uniquePartitionGuid ++
    (if sameDiskTypeUid then [] else cstr ",type=" ++ snprintfUuid entry.uniquePartitionGuid) ++ cstr ";"

/-- The loop over the entries, `lba` being the sector behind the entry before. -/
def gptListEntries (sameDiskTypeUid : Bool) : Nat → BitVec 64 → List GptEntry → CString
  | _, _, [] => []
  | i, lba, entry :: rest =>
    if entry.startingLba = 0 ∨ entry.endingLba = 0 then []
    else
      gptEntryDesc (i = 0 ∨ lba ≠ entry.startingLba) sameDiskTypeUid entry ++
        gptListEntries sameDiskTypeUid (i + 1) (entry.endingLba + 1) rest

def gptSameDiskTypeUid (partitions : List GptEntry) : Bool :=
  (partitions.takeWhile fun entry => entry.endingLba ≠ 0).all fun entry =>
    entry.partitionTypeGuid = (partitions.headD .zero).partitionTypeGuid

/-- `gpt_list_partitions --reverse`: the options and the text that it prints. An option that it leaves out
has the default that it compares with. -/
def gptListPartitions (hdr : GptHeader) (partitions : List GptEntry) : WritePartitionsArg where
  firstLba := hdr.firstUsableLba
  lastLba := hdr.lastUsableLba
  altLba := hdr.alternateLba
  partEntryLba := hdr.partitionEntryLba
  numParts := hdr.numPartitionEntries
  diskTypeUid :=
    if gptSameDiskTypeUid partitions then some (snprintfUuid (partitions.headD .zero).partitionTypeGuid) else none
  partitions := cstr "partitions=" ++ (cstr "uuid_disk=" ++ snprintfUuid hdr.diskGuid ++ cstr ";" ++
    gptListEntries (gptSameDiskTypeUid partitions) 0 hdr.firstUsableLba partitions)

/-- `gpt_write_partitions` up to the call of the parser, and that call. -/
def gptReparse (arg : WritePartitionsArg) : Option GptWriteData := do
  let diskTypeUid ← gptDiskTypeUid arg.diskTypeUid
  gptParsePartitions ⟨.zero, List.replicate GPT_MAX_NUM_PARTS.toNat .zero, arg.firstLba, 0, diskTypeUid⟩ arg.partitions

structure SameListed (e e' : GptEntry) : Prop where
  start : e'.startingLba = e.startingLba
  ending : e'.endingLba = e.endingLba
  name : e'.partitionName.text = e.partitionName.text
  uuid : e'.uniquePartitionGuid = e.uniquePartitionGuid
  type : e'.partitionTypeGuid = e.partitionTypeGuid
  bootable : e'.attributes.getLsbD 2 = e.attributes.getLsbD 2

/-- Listing a table and parsing the text gives its used entries again. -/
def GptRelisted (hdr : GptHeader) (entries : List GptEntry) : Prop :=
  ∃ p, gptReparse (gptListPartitions hdr entries) = some p ∧
    ∀ (i : Nat) (e : GptEntry), entries[i]? = some e → e.Used → SameListed e (p.partitions.getD i .zero)

end ImgEditor
