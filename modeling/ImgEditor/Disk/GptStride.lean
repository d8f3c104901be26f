import ImgEditor.Disk.GptFind
import ImgEditor.Disk.GptJson

namespace ImgEditor

open Storage CText

section Loops

variable (stop : GptEntry → Bool) (partitions : List Byte)

/-- A loop over the entries from `i` on: the first one where it stops, or the end; none when it leaves the array. -/
def gptScan : Nat → Nat → Option Nat
  | 0, i => some i
  | count + 1, i =>
    if 128 * (i + 1) ≤ partitions.length then
      if stop (entryAt partitions i) then some i else gptScan count (i + 1)
    else none

/-- The entries that the loop looks at; behind one outside of the array nothing is known. -/
def gptReads : Nat → Nat → List Nat
  | 0, _ => []
  | count + 1, i =>
    i :: if 128 * (i + 1) ≤ partitions.length ∧ stop (entryAt partitions i) = false then gptReads count (i + 1) else []

end Loops

/-- `gpt_find_part`, whose name buffer has 128 bytes: the place of the entry, or the number of entries. -/
def gptFindPart (p : GptTable) (partName : CString) : Option Nat :=
  gptScan (fun e => gptPartitionNameToChar e.partitionName 128 = partName) p.partitions p.numPartitionEntries 0

def gptFindPartReads (p : GptTable) (partName : CString) : List Nat :=
  gptReads (fun e => gptPartitionNameToChar e.partitionName 128 = partName) p.partitions p.numPartitionEntries 0

def gptDoFdiskReads (p : GptTable) : List Nat :=
  gptReads (fun e => e.startingLba = 0 ∨ e.endingLba = 0) p.partitions p.numPartitionEntries 0

/-- The loop of `gpt_show`, which tests the low halves of the sector numbers. -/
def gptShowReads (p : GptTable) : List Nat :=
  gptReads (fun e => le32ToCpu e.startingLba = 0 ∨ le32ToCpu e.endingLba = 0) p.partitions p.numPartitionEntries 0

/-- `gpt_list_partitions`: the type of the first entry, the loop that compares the types, and the loop that prints. -/
def gptListPartitionsReads (p : GptTable) : List Nat :=
  0 :: (gptReads
      (fun e => e.endingLba = 0 ∨ (entryAt p.partitions 0).partitionTypeGuid ≠ e.partitionTypeGuid) p.partitions
      p.numPartitionEntries 0 ++
    gptReads (fun e => e.startingLba = 0 ∨ e.endingLba = 0) p.partitions p.numPartitionEntries 0)

def gptToJsonReads (p : GptTable) : List Nat :=
  gptReads (fun e => e.startingLba = 0 ∨ e.endingLba = 0) p.partitions p.numPartitionEntries 0

/-- The first loop of `gpt_register_disk_partitions`; the second one looks at the entries that the first one counted. -/
def gptRegisterReads (p : GptTable) : List Nat :=
  gptReads (fun e => le32ToCpu e.startingLba = 0 ∨ le32ToCpu e.endingLba = 0) p.partitions p.numPartitionEntries 0

inductive GptUse where
  | fdisk
  | shown
  | partitions
  | peek (partName : CString)
  | toJson
  | registered
deriving DecidableEq

def gptUseReads (p : GptTable) : GptUse → List Nat
  | .fdisk => gptDoFdiskReads p
  | .shown => gptShowReads p
  | .partitions => gptListPartitionsReads p
  | .peek partName => gptFindPartReads p partName
  | .toJson => gptToJsonReads p
  | .registered => gptRegisterReads p

/-- Entry `i` of the packed array is the 128 bytes at `i` strides, inside of the array. -/
def AccessRight (p : GptTable) (i : Nat) : Prop :=
  128 * i = i * p.hdr.sizeofPartitionEntry.toNat ∧ 128 * i + 128 ≤ p.partitions.length

def StrideRight (p : GptTable) : Prop := ∀ use, ∀ i ∈ gptUseReads p use, AccessRight p i

/-- Entries of 128 bytes, or a single entry of at least that. -/
def StrideFits (p : GptTable) : Prop :=
  p.hdr.sizeofPartitionEntry = 128 ∧ p.hdr.numPartitionEntries ≠ 0 ∨
    p.hdr.numPartitionEntries = 1 ∧ 128 ≤ p.hdr.sizeofPartitionEntry.toNat

section Loops

variable {stop : GptEntry → Bool} {partitions : List Byte}

theorem gptReads_bounds {count i j : Nat} (read : j ∈ gptReads stop partitions count i) : i ≤ j ∧ j < i + count := by
  induction count generalizing i with
  | zero => exact absurd read List.not_mem_nil
  | succ count ih =>
    rw [gptReads] at read
    rcases List.mem_cons.mp read with rfl | later
    · omega
    · split at later
      · have bounds := ih later
        omega
      · exact absurd later List.not_mem_nil

/-- The loop leaves the array exactly where it looks at an entry outside of it. -/
theorem gptScan_none_iff (count i : Nat) :
    gptScan stop partitions count i = none ↔ ∃ j ∈ gptReads stop partitions count i, partitions.length < 128 * (j + 1) := by
  induction count generalizing i with
  | zero => exact iff_of_false nofun fun outside => absurd outside.choose_spec.1 List.not_mem_nil
  | succ count ih =>
    rw [gptScan, gptReads]
    by_cases inside : 128 * (i + 1) ≤ partitions.length
    · rw [if_pos inside]
      cases stopped : stop (entryAt partitions i) with
      | true =>
        rw [if_pos rfl, if_neg (by simp), List.exists_mem_cons_iff]
        refine iff_of_false nofun ?_
        rintro (here | ⟨j, member, _⟩)
        · omega
        · exact absurd member List.not_mem_nil
      | false =>
        rw [if_neg (by decide), if_pos ⟨inside, rfl⟩, ih, List.exists_mem_cons_iff]
        constructor
        · exact .inr
        · rintro (here | later)
          · omega
          · exact later
    · rw [if_neg inside]
      exact iff_of_true rfl ⟨i, List.mem_cons_self, Nat.lt_of_not_le inside⟩

theorem gptRegisterCount_scan (count i : Nat) : gptRegisterCount partitions count i =
    gptScan (fun e => le32ToCpu e.startingLba = 0 ∨ le32ToCpu e.endingLba = 0) partitions count i := by
  induction count generalizing i with
  | zero => rfl
  | succ count ih =>
    rw [gptRegisterCount, gptScan]
    split
    · dsimp only
      by_cases start : le32ToCpu (entryAt partitions i).startingLba = 0
      · rw [if_pos start, if_pos (decide_eq_true (.inl start))]
      · by_cases ending : le32ToCpu (entryAt partitions i).endingLba = 0
        · rw [if_neg start, if_pos ending, if_pos (decide_eq_true (.inr ending))]
        · rw [if_neg start, if_neg ending, if_neg fun stopped => (of_decide_eq_true stopped).elim start ending, ih]
    · rfl

end Loops

section Uses

variable {p : GptTable}

/-- Registration goes wrong exactly where it looks at an entry outside of the array. -/
theorem gptRegister_reads (gd : List DiskPartitions) : gptRegisterDiskPartitions p gd = none ↔
    ∃ i ∈ gptUseReads p .registered, p.partitions.length < 128 * (i + 1) := by
  rw [gptUseReads, gptRegisterReads, ← gptScan_none_iff, ← gptRegisterCount_scan]
  simp only [gptRegisterDiskPartitions, Option.bind_eq_bind, Option.pure_def]
  cases gptRegisterCount p.partitions p.numPartitionEntries 0 <;> simp

theorem gptUse_bounds (use : GptUse) {i : Nat} (read : i ∈ gptUseReads p use) : i = 0 ∨ i < p.numPartitionEntries := by
  have bound {stop : GptEntry → Bool} (read : i ∈ gptReads stop p.partitions p.numPartitionEntries 0) :
      i < p.numPartitionEntries := by
    have bounds := gptReads_bounds read
    omega
  cases use with
  | fdisk => exact .inr (bound read)
  | shown => exact .inr (bound read)
  | peek partName => exact .inr (bound read)
  | toJson => exact .inr (bound read)
  | registered => exact .inr (bound read)
  | partitions =>
    rcases List.mem_cons.mp read with first | later
    · exact .inl first
    · rcases List.mem_append.mp later with types | printed
      · exact .inr (bound types)
      · exact .inr (bound printed)

/-- There is always a name that the first entry does not have. -/
theorem exists_other_name (e : GptEntry) : ∃ partName, gptPartitionNameToChar e.partitionName 128 ≠ partName := by
  refine ⟨1 :: gptPartitionNameToChar e.partitionName 128, fun same => ?_⟩
  have length := congrArg List.length same
  rw [List.length_cons] at length
  omega

theorem peek_second {partName : CString} (inside : 128 ≤ p.partitions.length) (several : 2 ≤ p.numPartitionEntries)
    (other : gptPartitionNameToChar (entryAt p.partitions 0).partitionName 128 ≠ partName) :
    1 ∈ gptUseReads p (.peek partName) := by
  obtain ⟨count, number⟩ : ∃ count, p.numPartitionEntries = count + 2 := ⟨p.numPartitionEntries - 2, by omega⟩
  rw [gptUseReads, gptFindPartReads, number, gptReads, if_pos ⟨by omega, by simpa using other⟩, gptReads]
  exact List.mem_cons_of_mem _ List.mem_cons_self

end Uses

/-- Every entry is used where it is stored exactly for packed entries, or for a single one. -/
theorem gptStride_right_iff {fd : Fd} {p : GptTable} (accepted : gptDetect fd = some p) :
    StrideRight p ↔ StrideFits p := by
  obtain ⟨count, length, _⟩ := gptDetect_some accepted
  have packed : p.hdr.sizeofPartitionEntry.toNat = 128 ↔ p.hdr.sizeofPartitionEntry = 128 :=
    ⟨fun same => BitVec.eq_of_toNat_eq same, fun same => by rw [same]; rfl⟩
  have single : p.hdr.numPartitionEntries.toNat = 1 ↔ p.hdr.numPartitionEntries = 1 :=
    ⟨fun same => BitVec.eq_of_toNat_eq same, fun same => by rw [same]; rfl⟩
  constructor
  · intro right
    obtain ⟨_, room⟩ := right .partitions 0 List.mem_cons_self
    have nonempty : p.hdr.numPartitionEntries.toNat ≠ 0 := by
      intro zero
      rw [zero, Nat.mul_zero] at length
      omega
    by_cases stride : p.hdr.sizeofPartitionEntry.toNat = 128
    · exact .inl ⟨packed.mp stride, fun zero => nonempty (congrArg BitVec.toNat zero)⟩
    have one : p.hdr.numPartitionEntries.toNat = 1 := by
      by_contra several
      obtain ⟨partName, other⟩ := exists_other_name (entryAt p.partitions 0)
      have second := right (.peek partName) 1 (peek_second (by omega) (by omega) other)
      have same := second.1
      omega
    rw [one, Nat.mul_one] at length
    exact .inr ⟨single.mp one, by omega⟩
  · intro fits use i read
    have bound := gptUse_bounds use read
    rcases fits with ⟨stride, nonempty⟩ | ⟨one, wide⟩
    · have positive : 0 < p.hdr.numPartitionEntries.toNat :=
        Nat.pos_of_ne_zero fun zero => nonempty (BitVec.eq_of_toNat_eq zero)
      rw [packed.mpr stride] at length
      exact ⟨by rw [packed.mpr stride, Nat.mul_comm], by omega⟩
    · rw [single.mpr one] at length count
      have first : i = 0 := by omega
      rw [first]
      exact ⟨by rw [Nat.mul_zero, Nat.zero_mul], by omega⟩

def stridedFile (hdr : GptHeader) (partitions : List Byte) : File :=
  (File.empty.writeAt 512 hdr.encode).writeAt 1024 partitions

def stridedHeader (num size : BitVec 32) (partitions : List Byte) : GptHeader :=
  let hdr := { GptHeader.zero with
    signature := gptSignature
    headerSize := 92
    myLba := 1
    partitionEntryLba := 2
    numPartitionEntries := num
    sizeofPartitionEntry := size
    partitionEntryArrayCrc32 := crc32 0 partitions }
  { hdr with headerCrc32 := gptHeaderCalcCrc32 hdr }

theorem stridedFile_accepted {num size : BitVec 32} {partitions : List Byte}
    (length : partitions.length = size.toNat * num.toNat) (nonempty : partitions ≠ []) (small : partitions.length ≤ 0x7ffff000) :
    gptDetect ⟨stridedFile (stridedHeader num size partitions) partitions, 0, 0⟩ =
      some ⟨stridedHeader num size partitions, num.toNat, partitions⟩ := by
  have header : (File.empty.writeAt 512 (stridedHeader num size partitions).encode).Holds 512
      (stridedHeader num size partitions).encode := by
    apply File.writeAt_holds
    intro empty
    have bytes := congrArg List.length empty
    simp at bytes
  have primary : PrimaryHeader (stridedFile (stridedHeader num size partitions) partitions)
      (stridedHeader num size partitions) := by
    refine ⟨?_, ?_, rfl, rfl, rfl⟩
    · intro byte low
      rw [stridedFile, File.writeAt_byte_outside _ _ _ _ (Or.inl (by omega)),
        File.writeAt_byte_outside _ _ _ _ (Or.inl (by omega))]
      rfl
    · refine header.mono (File.size_le_writeAt _ _ _) fun byte _ high => ?_
      rw [GptHeader.encode_length] at high
      exact File.writeAt_byte_outside _ _ _ _ (Or.inl (by omega))
  obtain ⟨reader, same, _, detected⟩ := primary.gptDetect
  have location : (lba2sz64 (stridedHeader num size partitions).partitionEntryLba).toNat = 1024 := by
    show (lba2sz64 2).toNat = 1024
    decide
  have loaded : gptRetryEntries (stridedHeader num size partitions) 0 512 [0, 1, 2] reader = some partitions := by
    refine gptRetryEntries_first length small (by rw [location]; decide) ?_ rfl
    rw [location, same]
    exact File.writeAt_holds _ _ _ nonempty
  rw [detected, loaded]
  rfl

theorem gptStride_right_iff_packed : ∃ fd p, gptDetect fd = some p ∧ StrideRight p := by
  obtain ⟨partitions, length⟩ : ∃ partitions : List Byte, partitions.length = 128 :=
    ⟨List.replicate 128 0, List.length_replicate⟩
  have product : partitions.length = (128 : BitVec 32).toNat * (1 : BitVec 32).toNat := length
  have accepted := stridedFile_accepted product (fun empty => by simp [empty] at length) (by omega)
  refine ⟨_, _, accepted, (gptStride_right_iff accepted).mpr (.inl ⟨rfl, ?_⟩)⟩
  show (1 : BitVec 32) ≠ 0
  decide

/-- An accepted table with one entry of 64 bytes, of which 128 are read. -/
theorem gptStride_narrow : ∃ fd p, gptDetect fd = some p ∧ ¬ StrideRight p := by
  obtain ⟨partitions, length⟩ : ∃ partitions : List Byte, partitions.length = 64 :=
    ⟨List.replicate 64 0, List.length_replicate⟩
  have product : partitions.length = (64 : BitVec 32).toNat * (1 : BitVec 32).toNat := length
  have accepted := stridedFile_accepted product (fun empty => by simp [empty] at length) (by omega)
  refine ⟨_, _, accepted, fun right => ?_⟩
  have room : 128 * 0 + 128 ≤ partitions.length := (right .fdisk 0 List.mem_cons_self).2
  omega

end ImgEditor
