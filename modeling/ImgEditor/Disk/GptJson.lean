import ImgEditor.Disk.Gpt
import ImgEditor.Disk.GptText

namespace ImgEditor

open Storage CText

section Items

variable {σ : Type}

def itemGuid (name : String) (get : σ → EfiGuid) (set : EfiGuid → σ → σ) : StructureItem σ where
  name := cstr name
  createOrUpdate := true
  saveJson base := snprintfUuid (get base)
  loadJson s base := (sscanfUuid (get base) s).map fun guid => set guid base

def itemWcharString (name : String) (get : σ → PartitionName) (set : PartitionName → σ → σ) :
    StructureItem σ where
  name := cstr name
  createOrUpdate := true
  saveJson base := saveWcharString (get base)
  loadJson s base := some (set (setGptPartitionName (get base) s) base)

end Items

def structureGptHeader : List (StructureItem GptHeader) :=
  [itemUnsigned64 "my_lba" (·.myLba) fun n h => { h with myLba := n },
   itemUnsigned64 "alternate_lba" (·.alternateLba) fun n h => { h with alternateLba := n },
   itemUnsigned64 "first_usable_lba" (·.firstUsableLba) fun n h => { h with firstUsableLba := n },
   itemUnsigned64 "last_usable_lba" (·.lastUsableLba) fun n h => { h with lastUsableLba := n },
   itemGuid "disk_guid" (·.diskGuid) fun guid h => { h with diskGuid := guid },
   itemUnsigned64 "partition_entry_lba" (·.partitionEntryLba) fun n h => { h with partitionEntryLba := n },
   itemUnsigned32 "num_partition_entries" (·.numPartitionEntries) fun n h => { h with numPartitionEntries := n },
   itemUnsigned32 "sizeof_partition_entry" (·.sizeofPartitionEntry) fun n h => { h with sizeofPartitionEntry := n }]

def structureGptEntry : List (StructureItem GptEntry) :=
  [itemGuid "partition_type_guid" (·.partitionTypeGuid) fun guid e => { e with partitionTypeGuid := guid },
   itemGuid "unique_partition_guid" (·.uniquePartitionGuid) fun guid e => { e with uniquePartitionGuid := guid },
   itemXunsigned64 "attributes" (·.attributes) fun n e => { e with attributes := n },
   itemWcharString "partition_name" (·.partitionName) fun name e => { e with partitionName := name }]

def GptEntry.szLba (e : GptEntry) : BitVec 64 := e.endingLba - e.startingLba + 1

section Json

variable {J : Type} (api : CJson J)

/-- One object of the partitions array, when the next free sector is `lba`. -/
def gptPartToJson (lba : BitVec 64) (entry : GptEntry) : J :=
  let part := api.createObject
  let part :=
    if lba ≠ entry.startingLba then
      jsonCreateOrUpdateStringValue api part (cstr "starting_lba") (decimal entry.startingLba.toNat)
    else part
  let part := jsonCreateOrUpdateStringValue api part (cstr "lba_size") (decimal entry.szLba.toNat)
  structureSaveJson api part entry structureGptEntry

/-- The loop of `gpt_to_json`; none when it reads an entry behind the array. -/
def gptPartsToJson (partitions : List Byte) : Nat → Nat → BitVec 64 → J → Option J
  | 0, _, _, parts => some parts
  | count + 1, i, lba, parts =>
    if 128 * (i + 1) ≤ partitions.length then
      let entry := entryAt partitions i
      if entry.startingLba = 0 ∨ entry.endingLba = 0 then some parts
      else
        gptPartsToJson partitions count (i + 1) (entry.endingLba + 1)
          (api.addItemToArray parts (gptPartToJson api lba entry))
    else none

def gptToJson (p : GptTable) : Option J := do
  let root := structureSaveJson api api.createObject p.hdr structureGptHeader
  let parts ← gptPartsToJson api p.partitions p.numPartitionEntries 0 p.hdr.firstUsableLba api.createArray
  return api.addItemToObject root (cstr "partitions") parts

def gptPartFromJson (lba : BitVec 64) (part : J) : Option GptEntry := do
  let entry ← structureLoadJson api part GptEntry.zero structureGptEntry
  let startLba ← match jsonGetStringValueInObject api part (cstr "starting_lba") with
    | some s => (strictStrtoull s 10).map (BitVec.ofNat 64)
    | none => some lba
  let s ← jsonGetStringValueInObject api part (cstr "lba_size")
  let szLba : BitVec 64 := BitVec.ofNat 64 ((strictStrtoull s 10).getD 0)
  if szLba = 0 then none
  else return { entry with startingLba := startLba, endingLba := startLba + szLba - 1 }

/-- The loop of `gpt_from_json` over the entries from `i` on. -/
def gptPartsFromJson (parts : J) : Nat → Nat → BitVec 64 → Option (List GptEntry)
  | 0, _, _ => some []
  | count + 1, i, lba =>
    match api.getArrayItem parts i with
    | none => some (List.replicate (count + 1) GptEntry.zero)
    | some part => do
      let entry ← gptPartFromJson api lba part
      let rest ← gptPartsFromJson parts count (i + 1) (entry.endingLba + 1)
      return entry :: rest

/-- `gpt_from_json` on zeroed private data: the header and the entries. -/
def gptFromJson (root : J) : Option (GptHeader × List GptEntry) := do
  let parts ← api.getObjectItem root (cstr "partitions")
  if api.isArray parts = false then none
  else
    let hdr ← structureLoadJson api root GptHeader.zero structureGptHeader
    if (api.getArraySize parts : Int) > hdr.numPartitionEntries.toInt then none
    else if hdr.firstUsableLba ≤ hdr.myLba then none
    else
      let entries ← gptPartsFromJson api parts hdr.numPartitionEntries.toNat 0 hdr.firstUsableLba
      return (hdr, entries)

end Json

end ImgEditor
