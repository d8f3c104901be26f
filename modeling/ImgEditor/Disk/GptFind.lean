import ImgEditor.Disk.GptTable
import ImgEditor.Disk.Partition

namespace ImgEditor

open Storage CText

/-- `gpt_partition_name_to_char` into a buffer of `bufsz` bytes, as the string that it then holds. -/
def gptPartitionNameToChar (ws : PartitionName) (bufsz : Nat) : CString :=
  (((ws.toList.take (bufsz - 1)).takeWhile (· ≠ 0)).map (BitVec.truncate 8)).takeWhile (· ≠ 0)

/-- `le32_to_cpu` of a 64 bit sector number takes its low half. -/
def le32ToCpu (lba : BitVec 64) : BitVec 32 := lba.truncate 32

def GptEntry.Registered (e : GptEntry) : Prop := le32ToCpu e.startingLba ≠ 0 ∧ le32ToCpu e.endingLba ≠ 0

instance (e : GptEntry) : Decidable e.Registered := inferInstanceAs (Decidable (_ ∧ _))

/-- The loop that counts the partitions; none when it reads an entry behind the array. -/
def gptRegisterCount (partitions : List Byte) : Nat → Nat → Option Nat
  | 0, nParts => some nParts
  | count + 1, nParts =>
    if 128 * (nParts + 1) ≤ partitions.length then
      let entry := entryAt partitions nParts
      if le32ToCpu entry.startingLba = 0 then some nParts
      else if le32ToCpu entry.endingLba = 0 then some nParts
      else gptRegisterCount partitions count (nParts + 1)
    else none

def gptDiskPartition (entry : GptEntry) : DiskPartition where
  name := gptPartitionNameToChar entry.partitionName 32
  startAddr := (lba2sz32 (le32ToCpu entry.startingLba)).zeroExtend 64
  endAddr := (lba2sz32 (le32ToCpu entry.endingLba) - 1).zeroExtend 64

def gptRegisterDiskPartitions (p : GptTable) (gd : List DiskPartitions) : Option (List DiskPartitions) := do
  let nParts ← gptRegisterCount p.partitions p.numPartitionEntries 0
  let parts := (List.range nParts).map fun i => gptDiskPartition (entryAt p.partitions i)
  return registerDiskPartitions gd ⟨[71, 80, 84], 0, parts⟩

/-- Every entry from `i` on behind nothing but registered ones lies inside the array. -/
def RegisterInside (partitions : List Byte) (count i : Nat) : Prop :=
  ∀ k, i ≤ k → k < i + count → (∀ j, i ≤ j → j < k → (entryAt partitions j).Registered) →
    128 * (k + 1) ≤ partitions.length

theorem gptRegistered_or {e : GptEntry} {α : Type} (a b : α) :
    (if le32ToCpu e.startingLba = 0 then a else if le32ToCpu e.endingLba = 0 then a else b) =
      if e.Registered then b else a := by
  by_cases start : le32ToCpu e.startingLba = 0
  · rw [if_pos start, if_neg fun registered => registered.1 start]
  · by_cases stop : le32ToCpu e.endingLba = 0
    · rw [if_neg start, if_pos stop, if_neg fun registered => registered.2 stop]
    · rw [if_neg start, if_neg stop, if_pos ⟨start, stop⟩]

theorem gptRegisterCount_some {partitions : List Byte} {count i : Nat} (inside : RegisterInside partitions count i) :
    ∃ nParts, gptRegisterCount partitions count i = some nParts := by
  induction count generalizing i with
  | zero => exact ⟨i, rfl⟩
  | succ count ih =>
    rw [gptRegisterCount, if_pos (inside i (le_refl i) (by omega) (by omega))]
    simp only [gptRegistered_or]
    by_cases registered : (entryAt partitions i).Registered
    · rw [if_pos registered]
      apply ih
      intro k behind small before
      apply inside k (by omega) (by omega)
      intro j later earlier
      by_cases here : j = i
      · rwa [here]
      · exact before j (by omega) earlier
    · exact ⟨i, if_neg registered⟩

theorem gptRegisterCount_inside {partitions : List Byte} {count i nParts : Nat}
    (result : gptRegisterCount partitions count i = some nParts) : RegisterInside partitions count i := by
  induction count generalizing i with
  | zero => exact fun k behind small _ => absurd small (by omega)
  | succ count ih =>
    rw [gptRegisterCount] at result
    split at result
    swap
    · cases result
    rename_i room
    intro k behind small before
    by_cases here : k = i
    · rwa [here]
    · have registered := before i (le_refl i) (by omega)
      simp only [gptRegistered_or, if_pos registered] at result
      exact ih result k (by omega) (by omega) fun j later earlier => before j (by omega) earlier

theorem gptRegisterCount_le {partitions : List Byte} {count i nParts : Nat}
    (result : gptRegisterCount partitions count i = some nParts) : i ≤ nParts := by
  induction count generalizing i with
  | zero => exact le_of_eq (Option.some.inj result)
  | succ count ih =>
    rw [gptRegisterCount] at result
    split at result
    swap
    · cases result
    simp only [gptRegistered_or] at result
    split at result
    · exact Nat.le_of_succ_le (ih result)
    · exact le_of_eq (Option.some.inj result)

theorem gptRegisterCount_iff {partitions : List Byte} {count i nParts : Nat}
    (result : gptRegisterCount partitions count i = some nParts) (k : Nat) (behind : i ≤ k) :
    k < nParts ↔ k < i + count ∧ ∀ j, i ≤ j → j ≤ k → (entryAt partitions j).Registered := by
  induction count generalizing i with
  | zero =>
    obtain rfl : i = nParts := Option.some.inj result
    omega
  | succ count ih =>
    rw [gptRegisterCount] at result
    split at result
    swap
    · cases result
    simp only [gptRegistered_or] at result
    split at result
    · rename_i registered
      by_cases here : k = i
      · have least := gptRegisterCount_le result
        constructor
        · intro less
          refine ⟨by omega, ?_⟩
          intro j later earlier
          rwa [show j = i by omega]
        · intro _
          omega
      · rw [ih result (by omega)]
        constructor
        · rintro ⟨small, all⟩
          refine ⟨by omega, ?_⟩
          intro j later earlier
          by_cases first : j = i
          · rwa [first]
          · exact all j (by omega) earlier
        · rintro ⟨small, all⟩
          exact ⟨by omega, fun j later earlier => all j (by omega) earlier⟩
    · rename_i unregistered
      obtain rfl : i = nParts := Option.some.inj result
      constructor
      · intro less
        omega
      · rintro ⟨_, all⟩
        exact absurd (all i (le_refl i) behind) unregistered

def GptEntry.Covers (e : GptEntry) (addr : BitVec 64) : Prop :=
  e.startingLba.toNat * 512 ≤ addr.toNat ∧ addr.toNat < (e.endingLba.toNat + 1) * 512

/-- With this table alone registered, the search finds the entry of every address of a used entry and
nothing elsewhere. -/
def GptFindMeets (p : GptTable) : Prop :=
  ∃ gd, gptRegisterDiskPartitions p [] = some gd ∧
    (∀ addr i, i < p.numPartitionEntries → (p.slot i).Used → (p.slot i).Covers addr →
      (findRegistedPartition gd addr).bestPart = some (0, i)) ∧
    ∀ addr, (∀ i, i < p.numPartitionEntries → (p.slot i).Used → ¬ (p.slot i).Covers addr) →
      (findRegistedPartition gd addr).bestPart = none

/-- No used entry has an address and every registered range is empty. -/
structure GptFindSafe (p : GptTable) : Prop where
  inside : RegisterInside p.partitions p.numPartitionEntries 0
  addressless : ∀ i, i < p.numPartitionEntries → (p.slot i).Used →
    (p.slot i).endingLba < (p.slot i).startingLba ∨ 2 ^ 55 ≤ (p.slot i).startingLba.toNat
  empty : ∀ i, i < p.numPartitionEntries → (∀ j, j ≤ i → (entryAt p.partitions j).Registered) →
    (gptDiskPartition (entryAt p.partitions i)).endAddr < (gptDiskPartition (entryAt p.partitions i)).startAddr

def GptEntry.lastAddr (e : GptEntry) : BitVec 64 := BitVec.ofNat 64 (min ((e.endingLba.toNat + 1) * 512 - 1) (2 ^ 64 - 1))

/-- The end address of an entry is computed in 32 bits from the start of its last sector, so it lies below
that sector. -/
theorem gptDiskPartition_last {e : GptEntry} (nonzero : e.endingLba ≠ 0) :
    ¬ (gptDiskPartition e).Holds e.lastAddr := by
  rintro ⟨_, below⟩
  have last : (gptDiskPartition e).endAddr.toNat = (e.endingLba.toNat % 2 ^ 32 * 512 % 2 ^ 32 + (2 ^ 32 - 1)) % 2 ^ 32 := by
    have factor : (512 : BitVec 32).toNat = 512 := by decide
    have one : (1 : BitVec 32).toNat = 1 := by decide
    simp only [gptDiskPartition, lba2sz32, le32ToCpu, BitVec.truncate_eq_setWidth, BitVec.toNat_setWidth,
      BitVec.toNat_sub, BitVec.toNat_mul, factor, one]
    omega
  have positive : 0 < e.endingLba.toNat :=
    Nat.pos_of_ne_zero fun zero => nonzero (BitVec.eq_of_toNat_eq zero)
  have bound := e.endingLba.isLt
  have addr : e.lastAddr.toNat = min ((e.endingLba.toNat + 1) * 512 - 1) (2 ^ 64 - 1) := by
    rw [GptEntry.lastAddr, BitVec.toNat_ofNat]
    omega
  have order : e.lastAddr.toNat ≤ (gptDiskPartition e).endAddr.toNat := below
  omega

theorem GptEntry.lastAddr_covered {e : GptEntry} (order : e.startingLba ≤ e.endingLba)
    (near : e.startingLba.toNat < 2 ^ 55) : e.Covers e.lastAddr := by
  have addr : e.lastAddr.toNat = min ((e.endingLba.toNat + 1) * 512 - 1) (2 ^ 64 - 1) := by
    rw [GptEntry.lastAddr, BitVec.toNat_ofNat]
    omega
  have less : e.startingLba.toNat ≤ e.endingLba.toNat := order
  unfold GptEntry.Covers
  omega

section Exact

variable {p : GptTable}

theorem gptRegistered_search (p : GptTable) {nParts : Nat}
    (counted : gptRegisterCount p.partitions p.numPartitionEntries 0 = some nParts) :
    ∃ gd, gptRegisterDiskPartitions p [] = some gd ∧ ∀ addr, (findRegistedPartition gd addr).bestPart =
      (((List.range nParts).map fun i => gptDiskPartition (entryAt p.partitions i)).findIdx?
        fun part => part.Holds addr).map fun i => (0, i) := by
  refine ⟨_, by rw [gptRegisterDiskPartitions, counted]; rfl, ?_⟩
  intro addr
  exact findRegistedPartition_single _ addr (show (0 : Int) < 80 by decide)

theorem findIdx_range {α : Type} {f : Nat → α} {test : α → Bool} {n i : Nat}
    (found : ((List.range n).map f).findIdx? test = some i) : i < n ∧ test (f i) = true := by
  rw [List.findIdx?_eq_some_iff_getElem] at found
  obtain ⟨inside, here, _⟩ := found
  simp only [List.length_map, List.length_range] at inside
  refine ⟨inside, ?_⟩
  simpa using here

theorem GptFindSafe.meets (safe : GptFindSafe p) : GptFindMeets p := by
  obtain ⟨inside, addressless, empty⟩ := safe
  obtain ⟨nParts, counted⟩ := gptRegisterCount_some inside
  obtain ⟨gd, registered, search⟩ := gptRegistered_search _ counted
  refine ⟨gd, registered, ?_, ?_⟩
  · intro addr i small used covers
    have bound := addr.isLt
    unfold GptEntry.Covers at covers
    rcases addressless i small used with order | far
    · have less : (p.slot i).endingLba.toNat < (p.slot i).startingLba.toNat := order
      omega
    · omega
  · intro addr _
    rw [search, Option.map_eq_none_iff, List.findIdx?_eq_none_iff]
    intro part member
    obtain ⟨i, within, rfl⟩ := List.mem_map.mp member
    obtain ⟨small, all⟩ := (gptRegisterCount_iff counted i (Nat.zero_le i)).mp (List.mem_range.mp within)
    have void := empty i (by omega) fun j earlier => all j (Nat.zero_le j) earlier
    simp only [decide_eq_false_iff_not]
    rintro ⟨above, below⟩
    bv_omega

/-- The slots hold the entries that the code sees, or all used slots have addresses and begin like them. -/
def SlotsKnown (p : GptTable) : Prop :=
  p.hdr.sizeofPartitionEntry = 128 ∨ (48 ≤ p.hdr.sizeofPartitionEntry.toNat ∧
    ∀ i, i < p.numPartitionEntries → (p.slot i).Used →
      (p.slot i).startingLba ≤ (p.slot i).endingLba ∧ (p.slot i).startingLba.toNat < 2 ^ 55)

theorem leField_take (bytes : List Byte) {count start width : Nat} (fits : start + width ≤ count) :
    leField (bytes.take count) start width = leField bytes start width := by
  rw [leField, leField, List.drop_take, List.take_take, Nat.min_eq_left (by omega)]

theorem slot_zero (wide : 48 ≤ p.hdr.sizeofPartitionEntry.toNat) :
    (p.slot 0).startingLba = (entryAt p.partitions 0).startingLba ∧
      (p.slot 0).endingLba = (entryAt p.partitions 0).endingLba := by
  simp only [GptTable.slot, entryAt, GptEntry.decode, Nat.mul_zero, List.drop_zero]
  constructor <;> rw [leField_take _ (by omega), leField_take _ (by omega)]

theorem gptDiskPartition_lost {i : Nat} (used : (p.slot i).Used)
    (same : (p.slot i).endingLba = (entryAt p.partitions i).endingLba) :
    ¬ (gptDiskPartition (entryAt p.partitions i)).Holds (p.slot i).lastAddr := by
  have addr : (p.slot i).lastAddr = (entryAt p.partitions i).lastAddr := by
    rw [GptEntry.lastAddr, same, GptEntry.lastAddr]
  rw [addr]
  apply gptDiskPartition_last
  rw [← same]
  exact used.2

theorem GptFindMeets.safe (meets : GptFindMeets p) (known : SlotsKnown p) : GptFindSafe p := by
  obtain ⟨gd, registered, found, absent⟩ := meets
  obtain ⟨nParts, counted, _⟩ := Option.bind_eq_some_iff.mp registered
  obtain ⟨gd', registered', search⟩ := gptRegistered_search _ counted
  obtain rfl : gd = gd' := Option.some.inj (registered.symm.trans registered')
  have place : ∀ addr i, (findRegistedPartition gd addr).bestPart = some (0, i) →
      i < nParts ∧ (gptDiskPartition (entryAt p.partitions i)).Holds addr := by
    intro addr i result
    rw [search, Option.map_eq_some_iff] at result
    obtain ⟨k, index, pair⟩ := result
    obtain rfl : k = i := (Prod.mk.inj pair).2
    simpa using findIdx_range index
  have addressless : ∀ i, i < p.numPartitionEntries → (p.slot i).Used →
      (p.slot i).endingLba < (p.slot i).startingLba ∨ 2 ^ 55 ≤ (p.slot i).startingLba.toNat := by
    intro i small used
    by_contra addressed
    rw [not_or, BitVec.not_lt, not_le] at addressed
    have covered := GptEntry.lastAddr_covered addressed.1 addressed.2
    obtain ⟨within, holds⟩ := place _ i (found _ i small used covered)
    rcases known with packed | ⟨wide, valid⟩
    · exact gptDiskPartition_lost used (by rw [slot_packed packed]) holds
    · -- the first slot is registered as well, and it is read where it lies
      obtain ⟨start, stop⟩ := slot_zero wide
      obtain ⟨_, all⟩ := (gptRegisterCount_iff counted i (Nat.zero_le i)).mp within
      have first := all 0 (le_refl 0) (Nat.zero_le i)
      have firstUsed : (p.slot 0).Used := by
        constructor
        · intro zero
          apply first.1
          rw [← start, zero]
          rfl
        · intro zero
          apply first.2
          rw [← stop, zero]
          rfl
      obtain ⟨order, near⟩ := valid 0 (by omega) firstUsed
      have holdsFirst := (place _ 0 (found _ 0 (by omega) firstUsed (GptEntry.lastAddr_covered order near))).2
      exact gptDiskPartition_lost firstUsed stop holdsFirst
  refine ⟨gptRegisterCount_inside counted, addressless, ?_⟩
  intro i small all
  by_contra nonempty
  rw [BitVec.not_lt] at nonempty
  have within : i < nParts :=
    (gptRegisterCount_iff counted i (Nat.zero_le i)).mpr ⟨by omega, fun j _ earlier => all j earlier⟩
  have none := absent (gptDiskPartition (entryAt p.partitions i)).startAddr (by
    intro k low used covers
    have bound := (gptDiskPartition (entryAt p.partitions i)).startAddr.isLt
    unfold GptEntry.Covers at covers
    rcases addressless k low used with order | far
    · have less : (p.slot k).endingLba.toNat < (p.slot k).startingLba.toNat := order
      omega
    · omega)
  rw [search, Option.map_eq_none_iff, List.findIdx?_eq_none_iff] at none
  have missed := none _ (List.mem_map.mpr ⟨i, List.mem_range.mpr within, rfl⟩)
  simp only [decide_eq_false_iff_not] at missed
  exact missed ⟨BitVec.le_refl _, nonempty⟩

/-- The search answers for the registered table as the byte ranges of its entries say exactly when there are
none: every used entry with an address loses at least its last sector. -/
theorem gptFind_exact (p : GptTable) :
    (GptFindSafe p → GptFindMeets p) ∧ (SlotsKnown p → GptFindMeets p → GptFindSafe p) :=
  ⟨fun safe => safe.meets, fun known meets => meets.safe known⟩

end Exact

theorem gptFind_exact_unused : GptFindMeets (gptWrittenTable (gptSample 2) [GptEntry.zero]) := by
  have slot : ∀ i, i < 1 → (gptWrittenTable (gptSample 2) [GptEntry.zero]).slot i = GptEntry.zero := by
    intro i small
    obtain rfl : i = 0 := by omega
    exact gptWrittenTable_slot rfl (by decide)
  have unregistered : ¬ (entryAt (encodeEntries [GptEntry.zero]) 0).Registered := by
    rw [entryAt, encodeEntries_slice [GptEntry.zero] 0 (by decide)]
    show ¬ (GptEntry.decode GptEntry.zero.encode).Registered
    rw [GptEntry.decode_encode]
    decide
  refine (gptFind_exact (gptWrittenTable (gptSample 2) [GptEntry.zero])).1 ⟨?_, ?_, ?_⟩
  · intro k _ small _
    have low : k < 0 + 1 := small
    show 128 * (k + 1) ≤ (encodeEntries [GptEntry.zero]).length
    rw [encodeEntries_length, List.length_singleton]
    omega
  · intro i small used
    rw [slot i small] at used
    exact absurd used (by decide)
  · exact fun i _ all => absurd (all 0 (Nat.zero_le i)) unregistered

/-- The last sector of the only partition is not found. -/
theorem gptFind_lastSector : (∃ fd, gptDetect fd = some (gptWrittenTable (gptSample 2) [gptSampleEntry])) ∧
    (gptWrittenTable (gptSample 2) [gptSampleEntry]).entries = [gptSampleEntry] ∧
    gptSampleEntry.Covers (2047 * 512) ∧
    (∃ gd, gptRegisterDiskPartitions (gptWrittenTable (gptSample 2) [gptSampleEntry]) [] = some gd ∧
      (findRegistedPartition gd (2047 * 512)).bestPart = none) ∧
    ¬ GptFindMeets (gptWrittenTable (gptSample 2) [gptSampleEntry]) := by
  obtain ⟨fd, accepted⟩ := gptWrittenTable_accepted (gptSample 2) [gptSampleEntry]
    ⟨by decide, by decide, by decide, by decide⟩ (by decide) (by decide) (by unfold EntriesApart; decide)
  have covers : gptSampleEntry.Covers (2047 * 512) := by
    unfold GptEntry.Covers
    decide
  have slot : (gptWrittenTable (gptSample 2) [gptSampleEntry]).slot 0 = gptSampleEntry :=
    gptWrittenTable_slot rfl (by decide)
  have entry : entryAt (encodeEntries [gptSampleEntry]) 0 = gptSampleEntry := by
    rw [entryAt, encodeEntries_slice [gptSampleEntry] 0 (by decide)]
    exact GptEntry.decode_encode gptSampleEntry
  have counted : gptRegisterCount (encodeEntries [gptSampleEntry]) 1 0 = some 1 := by
    rw [gptRegisterCount, if_pos (by simp)]
    simp only [gptRegistered_or, entry]
    rw [if_pos (by decide), gptRegisterCount]
  refine ⟨⟨fd, accepted⟩, decodeEntries_encodeEntries [gptSampleEntry], covers, ?_, ?_⟩
  · obtain ⟨gd, registered, search⟩ :=
      gptRegistered_search (gptWrittenTable (gptSample 2) [gptSampleEntry]) counted
    refine ⟨gd, registered, ?_⟩
    rw [search, Option.map_eq_none_iff, List.findIdx?_eq_none_iff]
    intro part member
    obtain ⟨i, within, rfl⟩ := List.mem_map.mp member
    obtain rfl : i = 0 := by
      have low := List.mem_range.mp within
      omega
    show decide ((gptDiskPartition (entryAt (encodeEntries [gptSampleEntry]) 0)).Holds (2047 * 512)) = false
    rw [entry]
    decide
  · intro meets
    rcases (meets.safe (Or.inl rfl)).addressless 0 (by decide) (by rw [slot]; decide) with order | far
    · rw [slot] at order
      exact absurd order (by decide)
    · rw [slot] at far
      exact absurd far (by decide)

end ImgEditor
