import ImgEditor.Disk.GptSlots
import ImgEditor.Disk.GptTable

namespace ImgEditor

open Storage CText

def lbaGiven (s : CString) : Option Nat :=
  let sign := takeSign (s.dropWhile isSpace)
  let number := numeral 10 (sign.2.takeWhile (isDigit 10))
  if sign.1 = true ∧ number ≠ 0 then none
  else (lbaUnit (strtoull 10 s).2).map fun unit => number * 2 ^ unit / 512

def LbaFits (s : CString) : Prop := ∃ n < 2 ^ 55, lbaGiven s = some n

theorem lbaUnit_cases {s : CString} {unit : Nat} (known : lbaUnit s = some unit) : unit = 10 ∨ unit = 20 ∨ unit = 30 := by
  unfold lbaUnit at known
  split at known
  · cases known
  · split at known
    · exact .inl (Option.some.inj known).symm
    · split at known
      · exact .inr (.inl (Option.some.inj known).symm)
      · split at known
        · exact .inr (.inr (Option.some.inj known).symm)
        · cases known

theorem strtoull_value (s : CString) : (strtoull 10 s).1 =
    clampUll (takeSign (s.dropWhile isSpace)).1 (numeral 10 ((takeSign (s.dropWhile isSpace)).2.takeWhile (isDigit 10))) := by
  simp only [strtoull, skipHexPrefix_decimal]
  split
  · rename_i empty
    rw [empty]
    cases (takeSign (s.dropWhile isSpace)).1 <;> rfl
  · rfl

theorem toPartitionLbaSize_toNat {s : CString} {lba : BitVec 64} (read : toPartitionLbaSize s = some lba) :
    ∃ unit, (unit = 10 ∨ unit = 20 ∨ unit = 30) ∧ lbaUnit (strtoull 10 s).2 = some unit ∧
      lba.toNat = (strtoull 10 s).1 % 2 ^ 64 * 2 ^ unit % 2 ^ 64 / 512 := by
  obtain ⟨unit, known, rfl⟩ := Option.map_eq_some_iff.mp read
  refine ⟨unit, lbaUnit_cases known, known, ?_⟩
  rw [BitVec.toNat_udiv, BitVec.toNat_shiftLeft, BitVec.toNat_ofNat, Nat.shiftLeft_eq]
  rfl

theorem toPartitionLbaSize_small {s : CString} {lba : BitVec 64} (read : toPartitionLbaSize s = some lba) :
    lba.toNat < 2 ^ 55 := by
  obtain ⟨unit, _, _, value⟩ := toPartitionLbaSize_toNat read
  have bound : (strtoull 10 s).1 % 2 ^ 64 * 2 ^ unit % 2 ^ 64 < 2 ^ 64 := Nat.mod_lt _ (by decide)
  omega

theorem toPartitionLbaSize_right {s : CString} {lba : BitVec 64} (read : toPartitionLbaSize s = some lba) :
    lbaGiven s = some lba.toNat ↔ LbaFits s := by
  constructor
  · exact fun given => ⟨lba.toNat, toPartitionLbaSize_small read, given⟩
  · intro fits
    obtain ⟨n, small, given⟩ := fits
    obtain ⟨unit, known, found, value⟩ := toPartitionLbaSize_toNat read
    rw [strtoull_value] at value
    refine given.trans (congrArg some ?_)
    simp only [lbaGiven, found] at given
    generalize numeral 10 ((takeSign (s.dropWhile isSpace)).2.takeWhile (isDigit 10)) = number at given value
    generalize (takeSign (s.dropWhile isSpace)).1 = negative at given value
    split at given
    · cases given
    · rename_i plain
      have sectors : number * 2 ^ unit / 512 = n := Option.some.inj given
      have low : number < 2 ^ 64 := by
        rcases known with rfl | rfl | rfl <;> omega
      have read_ : clampUll negative number = number := by
        rw [clampUll, if_pos low]
        cases negative with
        | false => rfl
        | true =>
          have zero : number = 0 := by simpa using plain
          rw [zero]
          rfl
      rw [read_] at value
      rcases known with rfl | rfl | rfl <;> omega

/-- The characters of a name that the table can hold. -/
def GptNameFits (s : CString) : Prop := s.length ≤ 35 ∧ ∀ c ∈ s, c ≠ 0 ∧ c.toNat < 128

theorem signExtend_eq_zeroExtend (c : Byte) : c.signExtend 16 = c.zeroExtend 16 ↔ c.toNat < 128 := by
  revert c
  decide

theorem setGptPartitionName_kept (s : CString) :
    (setGptPartitionName (Vector.replicate 36 0) s).text = s.map (BitVec.zeroExtend 16) ↔ GptNameFits s := by
  rw [setGptPartitionName_takeWhile]
  constructor
  · intro same
    have lengths := congrArg List.length same
    have short := (List.takeWhile_prefix (p := (· ≠ 0#16)) (l := (s.take 35).map (BitVec.signExtend 16))).length_le
    simp only [List.length_map, List.length_take] at lengths short
    have fits : s.length ≤ 35 := by omega
    rw [List.take_of_length_le fits] at same
    have whole := (List.takeWhile_prefix (p := (· ≠ 0#16)) (l := s.map (BitVec.signExtend 16))).eq_of_length
      (by rw [same, List.length_map, List.length_map])
    refine ⟨fits, fun c member => ?_⟩
    have extended := List.map_inj_left.mp (whole.symm.trans same) c member
    refine ⟨?_, (signExtend_eq_zeroExtend c).mp extended⟩
    rintro rfl
    have unit := List.takeWhile_eq_self_iff.mp whole _ (List.mem_map_of_mem member)
    exact absurd unit (by decide)
  · rintro ⟨short, ascii⟩
    rw [List.take_of_length_le short]
    have extended : s.map (BitVec.signExtend 16) = s.map (BitVec.zeroExtend 16) :=
      List.map_congr_left fun c member => (signExtend_eq_zeroExtend c).mpr (ascii c member).2
    rw [extended]
    apply List.takeWhile_eq_self_iff.mpr
    intro unit member
    obtain ⟨c, inside, rfl⟩ := List.mem_map.mp member
    have kept : ∀ c : Byte, c ≠ 0 → c.zeroExtend 16 ≠ 0#16 := by decide
    simpa using kept c (ascii c inside).1

namespace ListedPart

/-- Where the part starts, when the sector behind the entry before it is `next`. -/
def givenStart (l : ListedPart) (next : Nat) : Option Nat :=
  match l.start with
  | none => some next
  | some s => lbaGiven s

def givenSize (l : ListedPart) : Option Nat := l.size.bind lbaGiven

def begins (l : ListedPart) (next : Nat) : Nat := (l.givenStart next).getD 0

def sectors (l : ListedPart) : Nat := l.givenSize.getD 0

end ListedPart

structure EntryRight (next : Nat) (l : ListedPart) (e : GptEntry) : Prop where
  used : e.Used
  start : l.givenStart next = some e.startingLba.toNat
  size : ∃ n, l.givenSize = some n ∧ e.endingLba.toNat + 1 = e.startingLba.toNat + n
  name : ∀ s, l.name = some s → e.partitionName.text = s.map (BitVec.zeroExtend 16)
  uuid : ∀ s, l.uuid = some s → sscanfUuid .zero s = some e.uniquePartitionGuid
  type : ∀ s, l.type = some s → sscanfUuid .zero s = some e.partitionTypeGuid
  bootable : e.attributes.getLsbD 2 = l.bootable

/-- One entry for each part, in the same order, when the first free sector is `next`. -/
def EntriesRight : Nat → List ListedPart → List GptEntry → Prop
  | _, [], [] => True
  | next, l :: parts, e :: entries => EntryRight next l e ∧ EntriesRight (e.endingLba.toNat + 1) parts entries
  | _, _, _ => False

/-- The numbers of the part fit, its name is one that the table can hold, and its type is the default. -/
structure PartFits (diskTypeUid : EfiGuid) (next : Nat) (l : ListedPart) : Prop where
  start : ∀ s, l.start = some s → LbaFits s
  size : ∀ s, l.size = some s → LbaFits s
  positive : 0 < l.begins next
  inside : l.begins next + l.sectors ≤ 2 ^ 64
  name : ∀ s, l.name = some s → GptNameFits s
  type : ∀ s, l.type = some s → sscanfUuid .zero s = some diskTypeUid

section Part

variable {l : ListedPart} {type : EfiGuid} {next : Nat}

theorem ListedPart.Readable.start_iff (readable : l.Readable) (bound : next ≤ 2 ^ 64) :
    l.givenStart next = some (l.startLba (BitVec.ofNat 64 next)).toNat ↔
      (∀ s, l.start = some s → LbaFits s) ∧ (l.start = none → next < 2 ^ 64) := by
  unfold ListedPart.givenStart
  cases given : l.start with
  | none =>
    have own : l.startLba (BitVec.ofNat 64 next) = BitVec.ofNat 64 next := by simp [ListedPart.startLba, given]
    rw [own, BitVec.toNat_ofNat]
    simp
    omega
  | some s =>
    have read := readable.start s given
    have own : l.startLba (BitVec.ofNat 64 next) = l.startLba 0 := by
      simp [ListedPart.startLba, given] at read ⊢
      rw [read]
      rfl
    rw [own]
    simp only [Option.some.injEq, forall_eq', reduceCtorEq, false_implies, and_true]
    exact toPartitionLbaSize_right read

theorem ListedPart.Readable.size_iff (readable : l.Readable) (filled : l.lbaSize ≠ 0) :
    l.givenSize = some l.lbaSize.toNat ↔ ∀ s, l.size = some s → LbaFits s := by
  obtain ⟨s, given⟩ := ListedPart.size_given filled
  have read := readable.size s given
  rw [ListedPart.givenSize, given, Option.bind_some, toPartitionLbaSize_right read]
  simp

theorem ListedPart.Readable.size_small (readable : l.Readable) (filled : l.lbaSize ≠ 0) :
    0 < l.lbaSize.toNat ∧ l.lbaSize.toNat < 2 ^ 55 := by
  obtain ⟨s, given⟩ := ListedPart.size_given filled
  refine ⟨?_, toPartitionLbaSize_small (readable.size s given)⟩
  exact Nat.pos_of_ne_zero fun zero => filled (BitVec.eq_of_toNat_eq zero)

/-- The last sector of an entry, computed modulo 2^64. -/
theorem endingLba_toNat (start size : BitVec 64) (positive : 0 < size.toNat) :
    (start + size - 1).toNat = (start.toNat + size.toNat - 1) % 2 ^ 64 := by
  have one : (1 : BitVec 64).toNat = 1 := rfl
  rw [BitVec.toNat_sub, BitVec.toNat_add, one]
  have small := start.isLt
  have bound := size.isLt
  omega

theorem ListedPart.entry_name {s : CString} (named : l.name = some s) (lba : BitVec 64) (e : GptEntry) :
    (l.entry type lba e).partitionName = setGptPartitionName (Vector.replicate 36 0) s := by
  simp [entry, given, named]

theorem ListedPart.Readable.entry_uuid {s : CString} (readable : l.Readable) (given : l.uuid = some s) (lba : BitVec 64)
    (e : GptEntry) : sscanfUuid .zero s = some (l.entry type lba e).uniquePartitionGuid := by
  obtain ⟨guid, read⟩ := Option.isSome_iff_exists.mp (readable.uuid s given)
  simp [entry, ListedPart.given, given, read]

theorem ListedPart.entry_bootable (lba : BitVec 64) : (l.entry type lba .zero).attributes.getLsbD 2 = l.bootable := by
  simp only [entry, given]
  cases l.bootable <;> rfl

theorem EntryRight.fits (right : EntryRight next l (l.entry type (BitVec.ofNat 64 next) .zero)) (readable : l.Readable)
    (filled : l.lbaSize ≠ 0) (bound : next ≤ 2 ^ 64) : PartFits type next l := by
  obtain ⟨n, given, last⟩ := right.size
  obtain ⟨positive, small⟩ := readable.size_small filled
  have begins : l.begins next = (l.startLba (BitVec.ofNat 64 next)).toNat := by
    rw [ListedPart.begins, right.start]
    rfl
  have ends : (l.entry type (BitVec.ofNat 64 next) .zero).endingLba.toNat =
      ((l.startLba (BitVec.ofNat 64 next)).toNat + l.lbaSize.toNat - 1) % 2 ^ 64 := endingLba_toNat _ _ positive
  have starts : (l.entry type (BitVec.ofNat 64 next) .zero).startingLba = l.startLba (BitVec.ofNat 64 next) := rfl
  rw [starts] at last
  -- an end behind the last sector number would lie in front of the start
  have size : n = l.lbaSize.toNat := by omega
  rw [size] at given
  have sectors : l.sectors = l.lbaSize.toNat := by
    rw [ListedPart.sectors, given]
    rfl
  refine ⟨((readable.start_iff bound).mp right.start).1, (readable.size_iff filled).mp given, ?_, ?_, ?_, right.type⟩
  · rw [begins]
    exact Nat.pos_of_ne_zero fun zero => right.used.1 (BitVec.eq_of_toNat_eq zero)
  · rw [begins, sectors]
    omega
  · intro s named
    rw [← setGptPartitionName_kept, ← ListedPart.entry_name named (BitVec.ofNat 64 next) .zero]
    exact right.name s named

theorem PartFits.start_eq (fits : PartFits type next l) (readable : l.Readable) (filled : l.lbaSize ≠ 0)
    (bound : next ≤ 2 ^ 64) : l.givenStart next = some (l.startLba (BitVec.ofNat 64 next)).toNat ∧
      l.begins next = (l.startLba (BitVec.ofNat 64 next)).toNat ∧ l.givenSize = some l.lbaSize.toNat ∧
      l.sectors = l.lbaSize.toNat := by
  obtain ⟨positive, _⟩ := readable.size_small filled
  have size := (readable.size_iff filled).mpr fits.size
  have sectors : l.sectors = l.lbaSize.toNat := by
    rw [ListedPart.sectors, size]
    rfl
  have inside := fits.inside
  have below : l.start = none → next < 2 ^ 64 := by
    intro none
    have own : l.begins next = next := by simp [ListedPart.begins, ListedPart.givenStart, none]
    omega
  have start := (readable.start_iff bound).mpr ⟨fits.start, below⟩
  refine ⟨start, ?_, size, sectors⟩
  rw [ListedPart.begins, start]
  rfl

theorem PartFits.right (fits : PartFits type next l) (readable : l.Readable) (filled : l.lbaSize ≠ 0)
    (bound : next ≤ 2 ^ 64) : EntryRight next l (l.entry type (BitVec.ofNat 64 next) .zero) := by
  obtain ⟨start, begins, size, sectors⟩ := fits.start_eq readable filled bound
  obtain ⟨positive, _⟩ := readable.size_small filled
  have first := fits.positive
  have inside := fits.inside
  rw [begins] at first inside
  rw [sectors] at inside
  have ends : (l.entry type (BitVec.ofNat 64 next) .zero).endingLba.toNat =
      ((l.startLba (BitVec.ofNat 64 next)).toNat + l.lbaSize.toNat - 1) % 2 ^ 64 := endingLba_toNat _ _ positive
  have starts : (l.entry type (BitVec.ofNat 64 next) .zero).startingLba = l.startLba (BitVec.ofNat 64 next) := rfl
  refine ⟨⟨?_, ?_⟩, start, ⟨l.lbaSize.toNat, size, ?_⟩, ?_, ?_, fits.type, ListedPart.entry_bootable _⟩
  · rw [starts]
    intro zero
    rw [zero] at first
    exact absurd first (by decide)
  · intro zero
    rw [zero] at ends
    have none : (0 : BitVec 64).toNat = 0 := rfl
    omega
  · rw [ends, starts]
    omega
  · intro s named
    rw [ListedPart.entry_name named]
    exact (setGptPartitionName_kept s).mpr (fits.name s named)
  · exact fun s given => readable.entry_uuid given _ _

end Part

/-- Every part fits and has a slot of its own among the first `slots`. -/
def PartsFit (diskTypeUid : EfiGuid) : Nat → Nat → List ListedPart → Prop
  | _, _, [] => True
  | slots, next, l :: rest =>
    0 < slots ∧ PartFits diskTypeUid next l ∧
      PartsFit diskTypeUid (slots - max 1 l.names) (l.begins next + l.sectors) rest

section Parts

variable {type : EfiGuid}

theorem entriesRight_length {next : Nat} {parts : List ListedPart} {entries : List GptEntry}
    (right : EntriesRight next parts entries) : entries.length = parts.length := by
  induction parts generalizing next entries with
  | nil =>
    cases entries with
    | nil => rfl
    | cons e entries => exact right.elim
  | cons l parts ih =>
    cases entries with
    | nil => exact right.elim
    | cons e entries => rw [List.length_cons, List.length_cons, ih right.2]

def usedOf (entries : List GptEntry) : List GptEntry := entries.filter fun e => e.Used

theorem zero_unused : decide GptEntry.zero.Used = false := by decide

theorem usedOf_nil (slots : Nat) : usedOf (filledSlots .zero slots []) = [] :=
  filter_filledSlots_nil (p := fun e : GptEntry => e.Used) zero_unused

theorem usedOf_blank (slots count : Nat) (entries : List GptEntry) :
    usedOf (filledSlots .zero slots (List.replicate count .zero ++ entries)) =
      usedOf (filledSlots .zero (slots - count) entries) :=
  filter_filledSlots_blank (p := fun e : GptEntry => e.Used) zero_unused count

theorem usedOf_cons (e : GptEntry) (entries : List GptEntry) : usedOf (e :: entries) = usedOf [e] ++ usedOf entries :=
  List.filter_append [e] entries

theorem slotBlocks_used {slots : Nat} {lba : BitVec 64} {l : ListedPart} {rest : List ListedPart} :
    usedOf (filledSlots .zero (slots + 1) (slotBlocks type lba (l :: rest))) =
      usedOf [l.entry type lba .zero] ++
        usedOf (filledSlots .zero (slots + 1 - max 1 l.names) (slotBlocks type (l.startLba lba + l.lbaSize) rest)) := by
  have left : slots + 1 - max 1 l.names = slots - (l.names - 1) := by omega
  rw [slotBlocks, filledSlots_cons, usedOf_cons, usedOf_blank, left]

theorem slotBlocks_used_length (slots : Nat) (lba : BitVec 64) (parts : List ListedPart) :
    (usedOf (filledSlots .zero slots (slotBlocks type lba parts))).length ≤ parts.length := by
  induction parts generalizing slots lba with
  | nil =>
    rw [slotBlocks, usedOf_nil]
    exact Nat.le_refl 0
  | cons l rest ih =>
    cases slots with
    | zero =>
      rw [filledSlots_zero]
      exact Nat.zero_le _
    | succ slots =>
      have one := List.length_filter_le (fun e : GptEntry => decide e.Used) [l.entry type lba .zero]
      have more := ih (slots + 1 - max 1 l.names) (l.startLba lba + l.lbaSize)
      rw [slotBlocks_used, List.length_append, List.length_cons]
      rw [List.length_singleton] at one
      exact Nat.le_trans (Nat.add_le_add one more) (by omega)

/-- The entries are right exactly when the parts fit. -/
theorem entriesRight_iff (slots next : Nat) (parts : List ListedPart) (bound : next ≤ 2 ^ 64)
    (readable : ∀ l ∈ parts, l.Readable ∧ l.lbaSize ≠ 0) :
    EntriesRight next parts (usedOf (filledSlots .zero slots (slotBlocks type (BitVec.ofNat 64 next) parts))) ↔
      PartsFit type slots next parts := by
  induction parts generalizing slots next with
  | nil =>
    rw [slotBlocks, usedOf_nil]
    exact Iff.rfl
  | cons l rest ih =>
    obtain ⟨read, filled⟩ := readable l List.mem_cons_self
    have others := fun slots next bound => ih slots next bound fun l member => readable l (List.mem_cons_of_mem _ member)
    obtain ⟨positive, _⟩ := read.size_small filled
    cases slots with
    | zero =>
      rw [filledSlots_zero]
      exact iff_of_false id fun fits => absurd fits.1 (Nat.lt_irrefl 0)
    | succ slots =>
      rw [slotBlocks_used]
      have goes (fits : PartFits type next l) :
          (l.entry type (BitVec.ofNat 64 next) .zero).endingLba.toNat + 1 = l.begins next + l.sectors ∧
            l.startLba (BitVec.ofNat 64 next) + l.lbaSize = BitVec.ofNat 64 (l.begins next + l.sectors) := by
        obtain ⟨_, begins, _, sectors⟩ := fits.start_eq read filled bound
        have right := fits.right read filled bound
        obtain ⟨n, given, last⟩ := right.size
        have same : l.sectors = n := by rw [ListedPart.sectors, given]; rfl
        refine ⟨?_, ?_⟩
        · rw [last, same, begins]
          rfl
        · rw [begins, sectors, BitVec.ofNat_add, BitVec.ofNat_toNat, BitVec.ofNat_toNat, BitVec.setWidth_eq,
            BitVec.setWidth_eq]
      have step (fits : PartFits type next l) : usedOf [l.entry type (BitVec.ofNat 64 next) .zero] =
          [l.entry type (BitVec.ofNat 64 next) .zero] :=
        List.filter_cons_of_pos (decide_eq_true (fits.right read filled bound).used)
      constructor
      · intro right
        have used : (l.entry type (BitVec.ofNat 64 next) .zero).Used := by
          by_contra unused
          have none : usedOf [l.entry type (BitVec.ofNat 64 next) .zero] = [] :=
            List.filter_cons_of_neg (by simpa using unused)
          have length := entriesRight_length right
          rw [none, List.nil_append, List.length_cons] at length
          have most := @slotBlocks_used_length type (slots + 1 - max 1 l.names)
            (l.startLba (BitVec.ofNat 64 next) + l.lbaSize) rest
          omega
        have one : usedOf [l.entry type (BitVec.ofNat 64 next) .zero] = [l.entry type (BitVec.ofNat 64 next) .zero] :=
          List.filter_cons_of_pos (decide_eq_true used)
        rw [one, List.singleton_append] at right
        have fits := right.1.fits read filled bound
        obtain ⟨ending, next_⟩ := goes fits
        refine ⟨Nat.succ_pos _, fits, (others _ _ fits.inside).mp ?_⟩
        rw [← next_, ← ending]
        exact right.2
      · intro fits
        obtain ⟨_, fits, more⟩ := fits
        obtain ⟨ending, next_⟩ := goes fits
        rw [step fits, List.singleton_append]
        refine ⟨fits.right read filled bound, ?_⟩
        rw [next_, ending]
        exact (others _ _ fits.inside).mpr more

end Parts

end ImgEditor
