import ImgEditor.Core.StructureFields

namespace ImgEditor

open Storage CText

structure StructureBitDescriptor where
  value : BitVec 64
  descriptor : CString

/-- What a print function shows of a field: the text of its number, and in parentheses the strings that describe it. -/
structure ShownItem where
  number : CString
  described : List CString

def getUnsigned (le : Bool) (un : List Byte) : BitVec 64 :=
  match un.length with
  | 1 => BitVec.ofNat 64 (leNumber un)
  | 2 => BitVec.ofNat 64 (toCpu le un)
  | 4 => BitVec.ofNat 64 (toCpu le un)
  | 8 => BitVec.ofNat 64 (toCpu le un)
  | _ => 0

def printBitDescriptors (flags : BitVec 64) : List StructureBitDescriptor → List CString
  | [] => []
  | d :: rest =>
    if flags &&& d.value ≠ 0 then d.descriptor :: printBitDescriptors flags rest else printBitDescriptors flags rest

def printEnumDescriptor (n : BitVec 64) : List StructureBitDescriptor → CString
  | [] => cstr "???"
  | d :: rest => if n = d.value then d.descriptor else printEnumDescriptor n rest

def shiftAndMask (rshift : Nat) (mask n : BitVec 64) : BitVec 64 :=
  if mask ≠ 0 then n >>> rshift &&& mask else n >>> rshift

section Print

variable (forcedEndian : StructureEndian) (le : Bool) (un : List Byte)

/-- `_structure_item_print_bit_flags`. It reads the flags before it asks which order is forced. -/
def structureItemPrintBitFlags (d : List StructureBitDescriptor) : ShownItem :=
  let flags := getUnsigned le un
  let le := structureEndianPreferLe forcedEndian le
  ⟨snprintfXunsigned le un, printBitDescriptors flags d⟩

def structureItemPrintEnum (rshift : Nat) (mask : BitVec 64) (d : List StructureBitDescriptor) : ShownItem :=
  let n := shiftAndMask rshift mask (getUnsigned le un)
  let le := structureEndianPreferLe forcedEndian le
  ⟨snprintfUnsigned le un, [printEnumDescriptor n d]⟩

/-- A shown item is read back as the number of a field of `sz` bytes. -/
def ShownItem.Shows (item : ShownItem) (base sz : Nat) (number : BitVec 64) : Prop :=
  ∃ n, strictStrtoull item.number base = some n ∧ number = BitVec.ofNat 64 (n % 256 ^ sz)

def descriptorsOf (d : List StructureBitDescriptor) (flags : BitVec 64) : List CString :=
  (d.filter fun bit => flags &&& bit.value ≠ 0).map (·.descriptor)

/-- The first of the descriptors that has the value has the name, or there is none and nothing is known. -/
def NameOf (d : List StructureBitDescriptor) (n : BitVec 64) (name : CString) : Prop :=
  (∃ before bit after, d = before ++ bit :: after ∧ (∀ other ∈ before, other.value ≠ n) ∧ bit.value = n ∧
    name = bit.descriptor) ∨ (∀ bit ∈ d, bit.value ≠ n) ∧ name = cstr "???"

def BitFlagsRight (d : List StructureBitDescriptor) : Prop :=
  let item := structureItemPrintBitFlags forcedEndian le un d
  ∃ number, item.Shows 16 un.length number ∧ item.described = descriptorsOf d number

def EnumRight (rshift : Nat) (mask : BitVec 64) (d : List StructureBitDescriptor) : Prop :=
  let item := structureItemPrintEnum forcedEndian le un rshift mask d
  ∃ number name, item.Shows 10 un.length number ∧ item.described = [name] ∧ NameOf d (shiftAndMask rshift mask number) name

/-- The number of the field in the order of the item, and in the order that is forced on it. -/
def ownNumber : BitVec 64 := BitVec.ofNat 64 (toCpu le un)

def forcedNumber : BitVec 64 := ownNumber (structureEndianPreferLe forcedEndian le) un

end Print

section Agreement

variable {forcedEndian : StructureEndian} {le : Bool} {un : List Byte}

theorem getUnsigned_eq (width : NumberWidth un.length) (le : Bool) : getUnsigned le un = ownNumber le un := by
  rcases width with size | size | size | size
  · rw [ownNumber, toCpu_single size]
    simp only [getUnsigned, size]
  · simp only [getUnsigned, size, ownNumber]
  · simp only [getUnsigned, size, ownNumber]
  · simp only [getUnsigned, size, ownNumber]

theorem printBitDescriptors_eq (flags : BitVec 64) (d : List StructureBitDescriptor) :
    printBitDescriptors flags d = descriptorsOf d flags := by
  induction d with
  | nil => rfl
  | cons bit d ih =>
    rw [printBitDescriptors, descriptorsOf, ih]
    by_cases hit : flags &&& bit.value ≠ 0
    · rw [if_pos hit, List.filter_cons_of_pos (by simpa using hit)]
      rfl
    · rw [if_neg hit, List.filter_cons_of_neg (by simpa using hit)]
      rfl

theorem printEnumDescriptor_name (n : BitVec 64) (d : List StructureBitDescriptor) :
    NameOf d n (printEnumDescriptor n d) := by
  induction d with
  | nil => exact .inr ⟨List.forall_mem_nil _, rfl⟩
  | cons bit d ih =>
    rw [printEnumDescriptor]
    by_cases same : n = bit.value
    · rw [if_pos same]
      exact .inl ⟨[], bit, d, rfl, List.forall_mem_nil _, same.symm, rfl⟩
    · rw [if_neg same]
      cases ih with
      | inl found =>
        obtain ⟨before, first, after, split, others, value, name⟩ := found
        refine .inl ⟨bit :: before, first, after, congrArg (bit :: ·) split, ?_, value, name⟩
        exact List.forall_mem_cons.mpr ⟨Ne.symm same, others⟩
      | inr unknown => exact .inr ⟨List.forall_mem_cons.mpr ⟨Ne.symm same, unknown.1⟩, unknown.2⟩

theorem NameOf.eq {n : BitVec 64} {d : List StructureBitDescriptor} {name : CString} (named : NameOf d n name) :
    name = printEnumDescriptor n d := by
  cases named with
  | inl found =>
    obtain ⟨before, bit, after, rfl, others, value, rfl⟩ := found
    induction before with
    | nil => rw [List.nil_append, printEnumDescriptor, if_pos value.symm]
    | cons other before ih =>
      have ⟨here, rest⟩ := List.forall_mem_cons.mp others
      rw [List.cons_append, printEnumDescriptor, if_neg (Ne.symm here)]
      exact ih rest
  | inr unknown =>
    obtain ⟨others, rfl⟩ := unknown
    induction d with
    | nil => rfl
    | cons other d ih =>
      have ⟨here, rest⟩ := List.forall_mem_cons.mp others
      rw [printEnumDescriptor, if_neg (Ne.symm here)]
      exact ih rest

theorem structureItemPrintBitFlags_shows (width : NumberWidth un.length) (d : List StructureBitDescriptor)
    (number : BitVec 64) : (structureItemPrintBitFlags forcedEndian le un d).Shows 16 un.length number ↔
      number = forcedNumber forcedEndian le un := by
  have read := snprintfXunsigned_read width (structureEndianPreferLe forcedEndian le)
  have bound := toCpu_lt (structureEndianPreferLe forcedEndian le) un
  simp only [ShownItem.Shows, structureItemPrintBitFlags, read, Option.some.injEq, exists_eq_left', Nat.mod_eq_of_lt bound,
    forcedNumber, ownNumber]

theorem structureItemPrintEnum_shows (width : NumberWidth un.length) (rshift : Nat) (mask : BitVec 64)
    (d : List StructureBitDescriptor) (number : BitVec 64) :
    (structureItemPrintEnum forcedEndian le un rshift mask d).Shows 10 un.length number ↔
      number = forcedNumber forcedEndian le un := by
  obtain ⟨n, read, value⟩ := snprintfUnsigned_read width (structureEndianPreferLe forcedEndian le)
  simp only [ShownItem.Shows, structureItemPrintEnum, read, Option.some.injEq, exists_eq_left', value, forcedNumber,
    ownNumber]

theorem structureItemPrintBitFlags_described (width : NumberWidth un.length) (d : List StructureBitDescriptor) :
    (structureItemPrintBitFlags forcedEndian le un d).described = descriptorsOf d (ownNumber le un) := by
  rw [← getUnsigned_eq width, ← printBitDescriptors_eq]
  rfl

theorem structureItemPrintEnum_described (width : NumberWidth un.length) (rshift : Nat) (mask : BitVec 64)
    (d : List StructureBitDescriptor) : (structureItemPrintEnum forcedEndian le un rshift mask d).described =
      [printEnumDescriptor (shiftAndMask rshift mask (ownNumber le un)) d] := by
  rw [← getUnsigned_eq width]
  rfl

/-- What is shown agrees with the number that is shown exactly if it is the same for the number in the item's own
order. -/
theorem structureItemPrint_right_iff (width : NumberWidth un.length) (rshift : Nat) (mask : BitVec 64)
    (d : List StructureBitDescriptor) :
    (BitFlagsRight forcedEndian le un d ↔
      descriptorsOf d (ownNumber le un) = descriptorsOf d (forcedNumber forcedEndian le un)) ∧
    (EnumRight forcedEndian le un rshift mask d ↔ ∃ name, NameOf d (shiftAndMask rshift mask (ownNumber le un)) name ∧
      NameOf d (shiftAndMask rshift mask (forcedNumber forcedEndian le un)) name) := by
  constructor
  · simp only [BitFlagsRight, structureItemPrintBitFlags_shows width, exists_eq_left,
      structureItemPrintBitFlags_described width]
  · simp only [EnumRight, structureItemPrintEnum_shows width, structureItemPrintEnum_described width]
    constructor
    · intro ⟨number, name, shown, printed, named⟩
      have same : printEnumDescriptor (shiftAndMask rshift mask (ownNumber le un)) d = name := by simpa using printed
      rw [shown] at named
      rw [← same] at named
      exact ⟨_, printEnumDescriptor_name _ d, named⟩
    · intro ⟨name, own, forced⟩
      exact ⟨_, name, rfl, congrArg (fun name => [name]) own.eq.symm, forced⟩

theorem structureItemPrint_right_le : BitFlagsRight .forceNone true [5, 0] [⟨1, cstr "a"⟩] :=
  (@structureItemPrint_right_iff .forceNone true [5, 0] (by decide) 0 0 [⟨1, cstr "a"⟩]).1.mpr rfl

/-- The field `01 00` is shown as 0x0100 when the big-endian order is forced, with the name of bit 0. -/
theorem structureItemPrintBitFlags_forced : ¬ BitFlagsRight .forceBe true [1, 0] [⟨1, cstr "a"⟩] := by
  intro ⟨number, shown, described⟩
  rw [structureItemPrintBitFlags_shows (by decide)] at shown
  rw [shown] at described
  exact absurd described (by decide)

/-- Where the order that is forced is the item's own, or none is, both agree. -/
theorem structureItemPrint_own (width : NumberWidth un.length) (own : structureEndianPreferLe forcedEndian le = le)
    (rshift : Nat) (mask : BitVec 64) (d : List StructureBitDescriptor) :
    BitFlagsRight forcedEndian le un d ∧ EnumRight forcedEndian le un rshift mask d := by
  have same : forcedNumber forcedEndian le un = ownNumber le un := by rw [forcedNumber, own]
  constructor
  · refine ⟨_, (structureItemPrintBitFlags_shows width d _).mpr same.symm, ?_⟩
    exact structureItemPrintBitFlags_described width d
  · refine ⟨_, _, (structureItemPrintEnum_shows width rshift mask d _).mpr same.symm, ?_, printEnumDescriptor_name _ d⟩
    exact structureItemPrintEnum_described width rshift mask d

end Agreement

end ImgEditor
