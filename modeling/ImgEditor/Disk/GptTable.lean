import ImgEditor.Disk.GptText
import ImgEditor.Disk.GptWrite

namespace ImgEditor

open Storage CText

theorem gptRetryEntries_length {hdr : GptHeader} {start gptOffset : Nat} {retries : List Nat} {fd : Fd}
    {partitions : List Byte} (loaded : gptRetryEntries hdr start gptOffset retries fd = some partitions) :
    partitions.length = hdr.sizeofPartitionEntry.toNat * hdr.numPartitionEntries.toNat := by
  induction retries generalizing fd with
  | nil => simp [gptRetryEntries] at loaded
  | cons retry rest ih =>
    rw [gptRetryEntries] at loaded
    split at loaded
    · rename_i bytes _ result
      obtain rfl := Option.some.inj loaded
      simp only [gptLoadEntries] at result
      split at result
      · simp at result
      · rename_i full
        split at result
        · simp at result
        · obtain rfl := Option.some.inj (Prod.mk.inj result).1
          exact not_not.mp full
    · exact ih loaded

theorem gptDetect_some {fd : Fd} {p : GptTable} (accepted : gptDetect fd = some p) :
    p.numPartitionEntries = p.hdr.numPartitionEntries.toNat ∧
      p.partitions.length = p.hdr.sizeofPartitionEntry.toNat * p.hdr.numPartitionEntries.toNat ∧
      p.partitions.length ≤ 0x7ffff000 := by
  simp only [gptDetect] at accepted
  generalize gptReadHeader (List.replicate 92 0) 0 fd = first at accepted
  split at accepted
  all_goals
    split at accepted
    · cases accepted
    split at accepted
    · cases accepted
    split at accepted
    · cases accepted
    split at accepted
    · cases accepted
    rename_i partitions loaded
    obtain rfl := Option.some.inj accepted
    have length := gptRetryEntries_length loaded
    exact ⟨rfl, length, length ▸ gptRetryEntries_small loaded⟩

/-- The entry in a slot of the array, whose slots have the size that the header says. -/
def GptTable.slot (p : GptTable) (i : Nat) : GptEntry :=
  GptEntry.decode ((p.partitions.drop (p.hdr.sizeofPartitionEntry.toNat * i)).take
    p.hdr.sizeofPartitionEntry.toNat)

def PartitionName.text (ws : PartitionName) : List (BitVec 16) := ws.toList.takeWhile (· ≠ 0)

theorem setGptPartitionName_takeWhile (s : CString) : (setGptPartitionName (Vector.replicate 36 0) s).text =
    ((s.take 35).map (BitVec.signExtend 16)).takeWhile (· ≠ 0#16) := by
  have ends : List.takeWhile (· ≠ 0#16) (List.replicate (36 - (s.take 35).length) 0#16) = [] := by
    obtain ⟨more, shape⟩ : ∃ more, 36 - (s.take 35).length = more + 1 :=
      ⟨35 - (s.take 35).length, by simp only [List.length_take]; omega⟩
    rw [shape, List.replicate_succ]
    rfl
  rw [PartitionName.text, setGptPartitionName_toList, List.takeWhile_append]
  split
  · rename_i whole
    exact (congrArg _ ends).trans ((List.append_nil _).trans ((List.takeWhile_prefix _).eq_of_length whole).symm)
  · rfl

theorem setGptPartitionName_text {s : CString} (nonzero : ∀ c ∈ s, c ≠ 0) :
    (setGptPartitionName (Vector.replicate 36 0) s).text = (s.take 35).map (BitVec.signExtend 16) := by
  rw [PartitionName.text, setGptPartitionName_toList, List.takeWhile_append_of_pos]
  · simp
  · intro unit member
    obtain ⟨c, inside, rfl⟩ := List.mem_map.mp member
    have extended : ∀ c : Byte, c ≠ 0 → c.signExtend 16 ≠ 0 := by decide
    simpa using extended c (nonzero c (List.mem_of_mem_take inside))

def GptEntry.SameFields (a b : GptEntry) : Prop :=
  a.partitionTypeGuid = b.partitionTypeGuid ∧ a.uniquePartitionGuid = b.uniquePartitionGuid ∧
    a.startingLba = b.startingLba ∧ a.endingLba = b.endingLba ∧ a.attributes = b.attributes

theorem slot_packed {p : GptTable} (packed : p.hdr.sizeofPartitionEntry = 128) (i : Nat) :
    p.slot i = entryAt p.partitions i := by
  rw [GptTable.slot, packed]
  rfl

def gptWrittenTable (hdr : GptHeader) (entries : List GptEntry) : GptTable :=
  ⟨gptWrittenHeader hdr (encodeEntries entries), entries.length, encodeEntries entries⟩

theorem gptWrittenTable_accepted (hdr : GptHeader) (entries : List GptEntry) (safe : GptWriteSafe hdr)
    (table : hdr.numPartitionEntries.toNat = entries.length) (lba : hdr.myLba = 0 ∨ hdr.myLba = 1)
    (apart : EntriesApart hdr) : ∃ fd, gptDetect fd = some (gptWrittenTable hdr entries) := by
  obtain ⟨image, _, _, detected⟩ := safe.loaded table lba apart
  exact ⟨_, detected⟩

theorem gptWrittenTable_slot {hdr : GptHeader} {entries : List GptEntry} {i : Nat}
    (packed : (gptWriteDefaults hdr).sizeofPartitionEntry = 128) (inside : i < entries.length) :
    (gptWrittenTable hdr entries).slot i = entries[i] := by
  rw [slot_packed packed, entryAt]
  show GptEntry.decode (((encodeEntries entries).drop (128 * i)).take 128) = _
  rw [encodeEntries_slice entries i inside, GptEntry.decode_encode]

end ImgEditor
