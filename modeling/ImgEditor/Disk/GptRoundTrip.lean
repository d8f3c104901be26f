import ImgEditor.Disk.GptJson
import ImgEditor.Disk.GptTable

namespace ImgEditor

open Storage CText

section Header

variable {J : Type} {api : CJson J} {children : J → List (CString × J)} {elements : J → List J}

theorem structureGptHeader_apart : NamesApart structureGptHeader := by decide

theorem structureGptEntry_apart : NamesApart structureGptEntry := by decide

def GptHeader.saved (h : GptHeader) : GptHeader :=
  { GptHeader.zero with
    myLba := h.myLba
    alternateLba := h.alternateLba
    firstUsableLba := h.firstUsableLba
    lastUsableLba := h.lastUsableLba
    diskGuid := h.diskGuid
    partitionEntryLba := h.partitionEntryLba
    numPartitionEntries := h.numPartitionEntries
    sizeofPartitionEntry := h.sizeofPartitionEntry }

/-- An entry as it comes back, but for its sectors. -/
def GptEntry.restoredItems (e : GptEntry) : GptEntry :=
  { GptEntry.zero with
    partitionTypeGuid := e.partitionTypeGuid
    uniquePartitionGuid := e.uniquePartitionGuid
    attributes := e.attributes
    partitionName := setGptPartitionName (Vector.replicate 36 0) (saveWcharString e.partitionName) }

theorem itemUnsigned64_saved {σ : Type} (name : String) (get : σ → BitVec 64) (set : BitVec 64 → σ → σ)
    (base loaded : σ) : (itemUnsigned64 name get set).loadJson ((itemUnsigned64 name get set).saveJson base) loaded =
      some (set (get base) loaded) := by
  simp [itemUnsigned64, strictStrtoull_decimal]

theorem itemUnsigned32_saved {σ : Type} (name : String) (get : σ → BitVec 32) (set : BitVec 32 → σ → σ)
    (base loaded : σ) : (itemUnsigned32 name get set).loadJson ((itemUnsigned32 name get set).saveJson base) loaded =
      some (set (get base) loaded) := by
  have number := strictStrtoull_unsigned32 (get base)
  obtain ⟨n, read, value⟩ := Option.map_eq_some_iff.mp number
  simp [itemUnsigned32, read, value]

theorem itemXunsigned64_saved {σ : Type} (name : String) (get : σ → BitVec 64) (set : BitVec 64 → σ → σ)
    (base loaded : σ) :
    (itemXunsigned64 name get set).loadJson ((itemXunsigned64 name get set).saveJson base) loaded =
      some (set (get base) loaded) := by
  simp [itemXunsigned64, strictStrtoull_xunsigned64]

theorem itemGuid_saved {σ : Type} (name : String) (get : σ → EfiGuid) (set : EfiGuid → σ → σ) (base loaded : σ) :
    (itemGuid name get set).loadJson ((itemGuid name get set).saveJson base) loaded =
      some (set (get base) loaded) := by
  simp [itemGuid, sscanfUuid_snprintfUuid]

theorem itemWcharString_saved {σ : Type} (name : String) (get : σ → PartitionName) (set : PartitionName → σ → σ)
    (base loaded : σ) :
    (itemWcharString name get set).loadJson ((itemWcharString name get set).saveJson base) loaded =
      some (set (setGptPartitionName (get loaded) (saveWcharString (get base))) loaded) := rfl

theorem structureGptHeader_load (json : J) {hdr : GptHeader}
    (found : ∀ item ∈ structureGptHeader,
      jsonGetStringValueInObject api json item.name = some (item.saveJson hdr)) :
    structureLoadJson api json GptHeader.zero structureGptHeader = some hdr.saved := by
  rw [structureLoadJson_saved found]
  simp only [structureGptHeader, List.foldlM_cons, List.foldlM_nil, itemUnsigned64_saved, itemUnsigned32_saved,
    itemGuid_saved, Option.bind_eq_bind, Option.bind_some]
  rfl

theorem structureGptEntry_load (json : J) {e : GptEntry}
    (found : ∀ item ∈ structureGptEntry,
      jsonGetStringValueInObject api json item.name = some (item.saveJson e)) :
    structureLoadJson api json GptEntry.zero structureGptEntry = some e.restoredItems := by
  rw [structureLoadJson_saved found]
  simp only [structureGptEntry, List.foldlM_cons, List.foldlM_nil, itemXunsigned64_saved, itemGuid_saved,
    itemWcharString_saved, Option.bind_eq_bind, Option.bind_some]
  rfl

theorem namesApart_front {σ : Type} {items : List (StructureItem σ)} {base : σ}
    {front : List (CString × CString)} (fresh : ∀ pair ∈ front, ∀ item ∈ items, sameName pair.1 item.name = false)
    (apart : NamesApart items) {item : StructureItem σ} (member : item ∈ items) :
    (front ++ savedPairs items base).find? (fun pair => sameName pair.1 item.name) =
      some (item.name, item.saveJson base) := by
  have none : front.find? (fun pair => sameName pair.1 item.name) = none := by
    rw [List.find?_eq_none]
    intro pair inside
    simp [fresh pair inside item member]
  rw [List.find?_append, none, Option.none_or, savedPairs_find base apart member]

def gptPartSectors (lba : BitVec 64) (e : GptEntry) : List (CString × CString) :=
  (if lba ≠ e.startingLba then [(cstr "starting_lba", decimal e.startingLba.toNat)] else []) ++
    [(cstr "lba_size", decimal e.szLba.toNat)]

theorem gptPartSectors_fresh (lba : BitVec 64) (e : GptEntry) :
    ∀ pair ∈ gptPartSectors lba e, ∀ item ∈ structureGptEntry, sameName pair.1 item.name = false := by
  have start : ∀ item ∈ structureGptEntry, sameName (cstr "starting_lba") item.name = false := by decide
  have size : ∀ item ∈ structureGptEntry, sameName (cstr "lba_size") item.name = false := by decide
  intro pair inside
  rcases List.mem_append.mp inside with inside | inside
  · split at inside
    · rw [List.mem_singleton.mp inside]
      exact start
    · exact absurd inside List.not_mem_nil
  · rw [List.mem_singleton.mp inside]
    exact size

theorem gptPartToJson_items (laws : api.Lawful children elements) (lba : BitVec 64) (e : GptEntry) :
    StringItems api children (gptPartToJson api lba e)
      (gptPartSectors lba e ++ savedPairs structureGptEntry e) := by
  have sectors : StringItems api children
      (jsonCreateOrUpdateStringValue api
        (if lba ≠ e.startingLba then
          jsonCreateOrUpdateStringValue api api.createObject (cstr "starting_lba") (decimal e.startingLba.toNat)
        else api.createObject) (cstr "lba_size") (decimal e.szLba.toNat)) (gptPartSectors lba e) := by
    have empty : StringItems api children api.createObject [] := .create laws
    unfold gptPartSectors
    split
    · have start : StringItems api children _ [(cstr "starting_lba", decimal e.startingLba.toNat)] :=
        empty.addOrUpdate laws _ fun pair inside => absurd inside List.not_mem_nil
      refine start.addOrUpdate laws _ ?_
      intro pair inside
      rw [List.mem_singleton.mp inside]
      show sameName (cstr "starting_lba") (cstr "lba_size") = false
      decide
    · exact empty.addOrUpdate laws _ (fun pair inside => absurd inside List.not_mem_nil)
  exact sectors.save laws e structureGptEntry_apart (gptPartSectors_fresh lba e)

/-- One object of the partitions array is loaded unless its size is a multiple of 2^64 sectors. -/
theorem gptPartFromJson_gptPartToJson (laws : api.Lawful children elements) (lba : BitVec 64) (e : GptEntry) :
    gptPartFromJson api lba (gptPartToJson api lba e) =
      if e.szLba = 0 then none
      else some { e.restoredItems with startingLba := e.startingLba, endingLba := e.endingLba } := by
  have items := gptPartToJson_items laws lba e
  have loaded := structureGptEntry_load (gptPartToJson api lba e) (show ∀ item ∈ structureGptEntry,
      jsonGetStringValueInObject api (gptPartToJson api lba e) item.name = some (item.saveJson e) by
    intro item member
    rw [items.get laws, namesApart_front (gptPartSectors_fresh lba e) structureGptEntry_apart member]
    rfl)
  have size : jsonGetStringValueInObject api (gptPartToJson api lba e) (cstr "lba_size") =
      some (decimal e.szLba.toNat) := by
    rw [items.get laws]
    have other : sameName (cstr "starting_lba") (cstr "lba_size") = false := by decide
    unfold gptPartSectors
    split <;> simp [other, sameName_self]
  have start : jsonGetStringValueInObject api (gptPartToJson api lba e) (cstr "starting_lba") =
      if lba ≠ e.startingLba then some (decimal e.startingLba.toNat) else none := by
    rw [items.get laws]
    have other : sameName (cstr "lba_size") (cstr "starting_lba") = false := by decide
    have rest : (savedPairs structureGptEntry e).find? (fun pair => sameName pair.1 (cstr "starting_lba")) = none := by
      have names : ∀ item ∈ structureGptEntry, sameName item.name (cstr "starting_lba") = false := by decide
      rw [List.find?_eq_none]
      intro pair inside
      obtain ⟨item, member, rfl⟩ := List.mem_map.mp inside
      simp [names item member]
    unfold gptPartSectors
    split <;> simp [other, sameName_self, rest]
  have sum : e.startingLba + e.szLba - 1#64 = e.endingLba := by
    simp only [GptEntry.szLba]
    bv_omega
  rw [gptPartFromJson, loaded, start, size]
  by_cases moved : lba ≠ e.startingLba
  · rw [if_pos moved]
    simp [strictStrtoull_decimal, sum]
  · rw [if_neg moved]
    have same : lba = e.startingLba := not_not.mp moved
    simp [strictStrtoull_decimal, sum, same]

def GptEntry.restored (e : GptEntry) : GptEntry :=
  { e.restoredItems with startingLba := e.startingLba, endingLba := e.endingLba }

/-- The objects of consecutive used entries, the first of which is written when `lba` is free. -/
def gptPartObjects (api : CJson J) (lba : BitVec 64) : List GptEntry → List J
  | [] => []
  | e :: rest => gptPartToJson api lba e :: gptPartObjects api (e.endingLba + 1) rest

def usedFrom (memory : List Byte) (count i : Nat) : List GptEntry :=
  ((List.range' i count).map (entryAt memory)).takeWhile (decide ·.Used)

/-- Every entry behind nothing but used ones lies inside the array. -/
def EntriesInside (memory : List Byte) (count i : Nat) : Prop :=
  ∀ k, k < count → (∀ j, j < k → (entryAt memory (i + j)).Used) → 128 * (i + k + 1) ≤ memory.length

theorem EntriesInside.next {memory : List Byte} {count i : Nat} (inside : EntriesInside memory (count + 1) i)
    (used : (entryAt memory i).Used) : EntriesInside memory count (i + 1) := by
  intro k small before
  have step := inside (k + 1) (by omega) (by
    intro j earlier
    cases j with
    | zero => exact used
    | succ j =>
      have later := before j (by omega)
      rwa [show i + 1 + j = i + (j + 1) by omega] at later)
  rwa [show i + (k + 1) + 1 = i + 1 + k + 1 by omega] at step

theorem usedFrom_used {memory : List Byte} {count i : Nat} (used : (entryAt memory i).Used) :
    usedFrom memory (count + 1) i = entryAt memory i :: usedFrom memory count (i + 1) := by
  simp [usedFrom, List.range'_succ, used]

theorem usedFrom_unused {memory : List Byte} {count i : Nat} (unused : ¬ (entryAt memory i).Used) :
    usedFrom memory (count + 1) i = [] := by
  simp [usedFrom, List.range'_succ, unused]

theorem usedFrom_length (memory : List Byte) (count i : Nat) : (usedFrom memory count i).length ≤ count := by
  have shorter := (List.takeWhile_sublist (decide ·.Used) : List.Sublist _
    ((List.range' i count).map (entryAt memory))).length_le
  simpa [usedFrom] using shorter

theorem gptEntry_unused {e : GptEntry} : (e.startingLba = 0 ∨ e.endingLba = 0) ↔ ¬ e.Used := by
  rw [GptEntry.Used, not_and_or, not_not, not_not]

theorem gptPartsToJson_objects (laws : api.Lawful children elements) (memory : List Byte) (count i : Nat)
    (lba : BitVec 64) (parts : J) (inside : EntriesInside memory count i) :
    ∃ out, gptPartsToJson api memory count i lba parts = some out ∧
      elements out = elements parts ++ gptPartObjects api lba (usedFrom memory count i) ∧
      api.isArray out = api.isArray parts := by
  induction count generalizing i lba parts with
  | zero => exact ⟨parts, rfl, by simp [usedFrom, gptPartObjects], rfl⟩
  | succ count ih =>
    have here := inside 0 (by omega) fun j none => absurd none (Nat.not_lt_zero j)
    rw [gptPartsToJson, if_pos (by simpa using here)]
    by_cases used : (entryAt memory i).Used
    · obtain ⟨out, result, shape, array⟩ := ih (i + 1) ((entryAt memory i).endingLba + 1)
        (api.addItemToArray parts (gptPartToJson api lba (entryAt memory i))) (inside.next used)
      refine ⟨out, ?_, ?_, ?_⟩
      · simp only [gptEntry_unused, used, not_true_eq_false, if_false]
        exact result
      · rw [shape, laws.elements_add, usedFrom_used used, gptPartObjects, List.append_assoc,
          List.singleton_append]
      · rw [array, laws.array_add]
    · refine ⟨parts, ?_, ?_, rfl⟩
      · simp only [gptEntry_unused, used, not_false_eq_true, if_true]
      · rw [usedFrom_unused used, gptPartObjects, List.append_nil]

theorem gptPartsToJson_inside {memory : List Byte} {count i : Nat} {lba : BitVec 64} {parts out : J}
    (result : gptPartsToJson api memory count i lba parts = some out) : EntriesInside memory count i := by
  induction count generalizing i lba parts with
  | zero => exact fun k none => absurd none (Nat.not_lt_zero k)
  | succ count ih =>
    rw [gptPartsToJson] at result
    split at result
    · rename_i here
      intro k small before
      cases k with
      | zero => exact here
      | succ k =>
        have used : (entryAt memory i).Used := before 0 (by omega)
        simp only [gptEntry_unused, used, not_true_eq_false, if_false] at result
        have rest := ih result k (by omega) (by
          intro j earlier
          have later := before (j + 1) (by omega)
          rwa [show i + (j + 1) = i + 1 + j by omega] at later)
        rwa [show i + 1 + k + 1 = i + (k + 1) + 1 by omega] at rest
    · exact absurd result (by simp)

theorem gptPartsFromJson_objects (laws : api.Lawful children elements) (parts : J) (count i : Nat)
    (lba : BitVec 64) (slots : List GptEntry) (stored : (elements parts).drop i = gptPartObjects api lba slots)
    (room : slots.length ≤ count) :
    gptPartsFromJson api parts count i lba =
      if ∀ e ∈ slots, e.szLba ≠ 0 then
        some (slots.map GptEntry.restored ++ List.replicate (count - slots.length) GptEntry.zero)
      else none := by
  induction count generalizing i lba slots with
  | zero =>
    have empty : slots = [] := List.eq_nil_of_length_eq_zero (by omega)
    simp [gptPartsFromJson, empty]
  | succ count ih =>
    cases slots with
    | nil =>
      have behind : (elements parts)[i]? = none := by
        rw [← Nat.add_zero i, ← List.getElem?_drop, stored]
        rfl
      simp [gptPartsFromJson, laws.array_item, behind]
    | cons e rest =>
      have here : (elements parts)[i]? = some (gptPartToJson api lba e) := by
        rw [← Nat.add_zero i, ← List.getElem?_drop, stored]
        rfl
      have next : (elements parts).drop (i + 1) = gptPartObjects api (e.endingLba + 1) rest := by
        rw [Nat.add_comm, ← List.drop_drop, Nat.add_comm] at *
        rw [List.drop_drop, Nat.add_comm, ← List.drop_drop, stored]
        rfl
      have tail := ih (i + 1) (e.endingLba + 1) rest next (by simpa using room)
      rw [gptPartsFromJson, laws.array_item, here]
      simp only [gptPartFromJson_gptPartToJson laws]
      by_cases empty : e.szLba = 0
      · simp [empty]
      · rw [if_neg empty]
        simp only [Option.bind_eq_bind, Option.bind_some, tail]
        by_cases sized : ∀ e ∈ rest, e.szLba ≠ 0
        · simp only [if_pos sized]
          have all : ∀ x ∈ e :: rest, x.szLba ≠ 0 := by
            intro x member
            rcases List.mem_cons.mp member with rfl | member
            · exact empty
            · exact sized x member
          rw [if_pos all]
          simp [GptEntry.restored]
        · simp only [if_neg sized]
          rw [if_neg fun all => sized fun x member => all x (List.mem_cons_of_mem _ member)]
          rfl

theorem gptFromJson_gptToJson (laws : api.Lawful children elements) (p : GptTable)
    (count : p.numPartitionEntries = p.hdr.numPartitionEntries.toNat)
    (small : p.hdr.numPartitionEntries.toNat < 2 ^ 31)
    (inside : EntriesInside p.partitions p.numPartitionEntries 0) :
    ∃ root, gptToJson api p = some root ∧ gptFromJson api root =
      if p.hdr.firstUsableLba ≤ p.hdr.myLba then none
      else if ∀ e ∈ usedFrom p.partitions p.numPartitionEntries 0, e.szLba ≠ 0 then
        some (p.hdr.saved, (usedFrom p.partitions p.numPartitionEntries 0).map GptEntry.restored ++
          List.replicate (p.numPartitionEntries - (usedFrom p.partitions p.numPartitionEntries 0).length)
            GptEntry.zero)
      else none := by
  obtain ⟨parts, result, shape, array⟩ := gptPartsToJson_objects laws p.partitions p.numPartitionEntries 0
    p.hdr.firstUsableLba api.createArray inside
  rw [laws.elements_create, List.nil_append] at shape
  rw [laws.array_create] at array
  have noPairs : ∀ pair ∈ ([] : List (CString × CString)), ∀ item ∈ structureGptHeader,
      sameName pair.1 item.name = false := fun pair none => absurd none List.not_mem_nil
  have items := (StringItems.create laws).save laws p.hdr structureGptHeader_apart noPairs
  rw [List.nil_append] at items
  refine ⟨_, by rw [gptToJson, result]; rfl, ?_⟩
  have partsFound : api.getObjectItem (api.addItemToObject
      (structureSaveJson api api.createObject p.hdr structureGptHeader) (cstr "partitions") parts)
        (cstr "partitions") = some parts := by
    apply items.getItem_addItem laws
    have names : ∀ item ∈ structureGptHeader, sameName item.name (cstr "partitions") = false := by decide
    intro pair inside
    obtain ⟨item, member, rfl⟩ := List.mem_map.mp inside
    exact names item member
  have header := structureGptHeader_load (api.addItemToObject (structureSaveJson api api.createObject p.hdr
    structureGptHeader) (cstr "partitions") parts) fun item member =>
        items.get_addItem laws _ parts (savedPairs_find p.hdr structureGptHeader_apart member)
  have objects : (gptPartObjects api p.hdr.firstUsableLba
      (usedFrom p.partitions p.numPartitionEntries 0)).length =
        (usedFrom p.partitions p.numPartitionEntries 0).length := by
    generalize usedFrom p.partitions p.numPartitionEntries 0 = slots
    generalize p.hdr.firstUsableLba = lba
    induction slots generalizing lba with
    | nil => rfl
    | cons e rest ih => simp [gptPartObjects, ih]
  have room := usedFrom_length p.partitions p.numPartitionEntries 0
  have enough : ¬ (api.getArraySize parts : Int) > p.hdr.saved.numPartitionEntries.toInt := by
    show ¬ (api.getArraySize parts : Int) > p.hdr.numPartitionEntries.toInt
    rw [laws.array_size, shape, objects, BitVec.toInt_eq_toNat_of_lt (by omega)]
    omega
  rw [gptFromJson, partsFound]
  simp only [Option.bind_eq_bind, Option.bind_some, array, Bool.true_eq_false, if_false, header, if_neg enough]
  show (if p.hdr.firstUsableLba ≤ p.hdr.myLba then none else
    (gptPartsFromJson api parts p.hdr.numPartitionEntries.toNat 0 p.hdr.firstUsableLba).bind
      fun entries => some (p.hdr.saved, entries)) = _
  rw [← count, gptPartsFromJson_objects laws parts p.numPartitionEntries 0 p.hdr.firstUsableLba _ shape room]
  congr 1
  split <;> rfl

end Header

/-- The header fields and every used entry are restored. -/
def GptJsonMeets {J : Type} (api : CJson J) (p : GptTable) : Prop :=
  ∃ root hdr entries, gptToJson api p = some root ∧ gptFromJson api root = some (hdr, entries) ∧
    hdr.saved = p.hdr.saved ∧
    ∀ i, i < p.numPartitionEntries → (p.slot i).Used →
      ∃ e, entries[i]? = some e ∧ e.SameFields (p.slot i) ∧ e.partitionName.text = (p.slot i).partitionName.text

/-- The first usable sector is behind the header, the used slots have no gap in front of them, the array
of packed entries agrees with the slots and the names keep their text in 35 units. -/
structure GptJsonSafe (p : GptTable) : Prop where
  usable : p.hdr.myLba < p.hdr.firstUsableLba
  inside : EntriesInside p.partitions p.numPartitionEntries 0
  sized : ∀ e ∈ usedFrom p.partitions p.numPartitionEntries 0, e.endingLba + 1 ≠ e.startingLba
  gapless : ∀ i, i < p.numPartitionEntries → (p.slot i).Used → ∀ j, j ≤ i → (entryAt p.partitions j).Used
  same : ∀ i, i < p.numPartitionEntries → (p.slot i).Used → (entryAt p.partitions i).SameFields (p.slot i)
  short : ∀ i, i < p.numPartitionEntries → (p.slot i).Used →
    ((saveWcharString (entryAt p.partitions i).partitionName).take 35).map (BitVec.signExtend 16) =
      (p.slot i).partitionName.text

theorem saveWcharString_nonzero (ws : PartitionName) : ∀ c ∈ saveWcharString ws, c ≠ 0 := by
  intro c member
  simpa using List.mem_takeWhile_imp member

section Exact

variable {J : Type} {api : CJson J} {children : J → List (CString × J)} {elements : J → List J} {p : GptTable}

theorem szLba_zero {e : GptEntry} : e.szLba = 0 ↔ e.endingLba + 1 = e.startingLba := by
  simp only [GptEntry.szLba]
  constructor
  · intro none
    bv_omega
  · intro same
    bv_omega

theorem usedFrom_get {memory : List Byte} {count i : Nat} (small : i < count)
    (used : ∀ j, j ≤ i → (entryAt memory j).Used) :
    (usedFrom memory count 0)[i]? = some (entryAt memory i) := by
  have shape : (List.range' 0 count).map (entryAt memory) =
      (List.range' 0 (i + 1)).map (entryAt memory) ++ (List.range' (i + 1) (count - (i + 1))).map (entryAt memory) := by
    have joined : List.range' 0 (i + 1) ++ List.range' (0 + (i + 1)) (count - (i + 1)) =
        List.range' 0 (i + 1 + (count - (i + 1))) := List.range'_append_1
    rw [Nat.zero_add, Nat.add_sub_of_le (by omega)] at joined
    rw [← List.map_append, joined]
  rw [usedFrom, shape, List.takeWhile_append_of_pos]
  · rw [List.getElem?_append_left (by simp)]
    simp
  · intro e member
    obtain ⟨j, inside, rfl⟩ := List.mem_map.mp member
    have earlier := (List.mem_range'_1.mp inside).2
    simpa using used j (by omega)

theorem usedFrom_before {memory : List Byte} {count i : Nat} (inside : i < (usedFrom memory count 0).length) :
    ∀ j, j ≤ i → (entryAt memory j).Used := by
  intro j earlier
  have here : j < (usedFrom memory count 0).length := by omega
  have member : (usedFrom memory count 0)[j] ∈ usedFrom memory count 0 := List.getElem_mem here
  have used := List.mem_takeWhile_imp member
  have value : (usedFrom memory count 0)[j] = entryAt memory j := by
    have prefixed := (List.takeWhile_prefix (decide ·.Used) :
      List.IsPrefix _ ((List.range' 0 count).map (entryAt memory))).getElem here
    refine prefixed.trans ?_
    simp
  rw [value] at used
  simpa using used

theorem restored_text (e : GptEntry) : e.restored.partitionName.text =
    ((saveWcharString e.partitionName).take 35).map (BitVec.signExtend 16) :=
  setGptPartitionName_text (saveWcharString_nonzero e.partitionName)

theorem restored_fields (e x : GptEntry) : e.restored.SameFields x ↔ e.SameFields x := by
  simp only [GptEntry.SameFields, GptEntry.restored, GptEntry.restoredItems]

theorem GptHeader.saved_saved (h : GptHeader) : h.saved.saved = h.saved := rfl

theorem GptEntry.zero_fields {x : GptEntry} (same : GptEntry.zero.SameFields x) : ¬ x.Used :=
  fun used => used.1 same.2.2.1.symm

theorem EntriesInside.small {fd : Fd} (accepted : gptDetect fd = some p)
    (inside : EntriesInside p.partitions p.numPartitionEntries 0) :
    p.hdr.numPartitionEntries.toNat < 2 ^ 31 := by
  obtain ⟨count, length, readable⟩ := gptDetect_some accepted
  by_contra large
  have first := inside 0 (by omega) fun j none => absurd none (Nat.not_lt_zero j)
  have wide : 0 < p.hdr.sizeofPartitionEntry.toNat := by
    apply Nat.pos_of_ne_zero
    intro zero
    rw [length, zero, Nat.zero_mul] at first
    omega
  have least := Nat.mul_le_mul wide (Nat.le_refl p.hdr.numPartitionEntries.toNat)
  omega

theorem GptJsonSafe.meets (laws : api.Lawful children elements) {fd : Fd} (accepted : gptDetect fd = some p)
    (safe : GptJsonSafe p) : GptJsonMeets api p := by
  obtain ⟨usable, inside, sized, gapless, same, short⟩ := safe
  obtain ⟨count, _, _⟩ := gptDetect_some accepted
  obtain ⟨root, saved, loaded⟩ := gptFromJson_gptToJson laws p count (inside.small accepted) inside
  have behind : ¬ p.hdr.firstUsableLba ≤ p.hdr.myLba := by
    rw [BitVec.not_le]
    exact usable
  have nonempty : ∀ e ∈ usedFrom p.partitions p.numPartitionEntries 0, e.szLba ≠ 0 :=
    fun e member none => sized e member (szLba_zero.mp none)
  rw [if_neg behind, if_pos nonempty] at loaded
  refine ⟨root, _, _, saved, loaded, GptHeader.saved_saved _, ?_⟩
  intro i small used
  have place := usedFrom_get small (gapless i small used)
  obtain ⟨within, _⟩ := List.getElem?_eq_some_iff.mp place
  refine ⟨(entryAt p.partitions i).restored, ?_, (restored_fields _ _).mpr (same i small used), ?_⟩
  · rw [List.getElem?_append_left (by simpa using within), List.getElem?_map, place]
    rfl
  · rw [restored_text, short i small used]

theorem GptJsonMeets.safe (laws : api.Lawful children elements) {fd : Fd} (accepted : gptDetect fd = some p)
    (meets : GptJsonMeets api p) : GptJsonSafe p := by
  obtain ⟨root, hdr, entries, saved, loaded, _, kept⟩ := meets
  obtain ⟨count, _, _⟩ := gptDetect_some accepted
  have inside : EntriesInside p.partitions p.numPartitionEntries 0 := by
    rw [gptToJson] at saved
    obtain ⟨parts, result, _⟩ := Option.bind_eq_some_iff.mp saved
    exact gptPartsToJson_inside result
  obtain ⟨root', saved', result⟩ := gptFromJson_gptToJson laws p count (inside.small accepted) inside
  obtain rfl : root = root' := Option.some.inj (saved.symm.trans saved')
  rw [loaded] at result
  split at result
  · cases result
  rename_i behind
  split at result
  swap
  · cases result
  rename_i nonempty
  obtain ⟨rfl, rfl⟩ := Prod.mk.inj (Option.some.inj result)
  have place : ∀ i, i < p.numPartitionEntries → (p.slot i).Used →
      i < (usedFrom p.partitions p.numPartitionEntries 0).length ∧
        (entryAt p.partitions i).SameFields (p.slot i) ∧
        (entryAt p.partitions i).restored.partitionName.text = (p.slot i).partitionName.text := by
    intro i small used
    obtain ⟨e, found, fields, name⟩ := kept i small used
    by_cases within : i < (usedFrom p.partitions p.numPartitionEntries 0).length
    · rw [List.getElem?_append_left (by simpa using within), List.getElem?_map,
        usedFrom_get small (usedFrom_before within)] at found
      obtain rfl := Option.some.inj found
      exact ⟨within, (restored_fields _ _).mp fields, name⟩
    · rw [List.getElem?_append_right (by simpa using within), List.getElem?_replicate] at found
      split at found
      · obtain rfl := Option.some.inj found
        exact absurd used (GptEntry.zero_fields fields)
      · cases found
  refine ⟨BitVec.not_le.mp behind, inside, ?_, ?_, ?_, ?_⟩
  · exact fun e member none => nonempty e member (szLba_zero.mpr none)
  · exact fun i small used => usedFrom_before (place i small used).1
  · exact fun i small used => (place i small used).2.1
  · intro i small used
    rw [← restored_text, (place i small used).2.2]

/-- Saving an accepted table and loading it again restores it exactly when its used slots have no gap and
their names fit. -/
theorem gptJson_exact (laws : api.Lawful children elements) {fd : Fd} (accepted : gptDetect fd = some p) :
    GptJsonMeets api p ↔ GptJsonSafe p :=
  ⟨fun meets => meets.safe laws accepted, fun safe => safe.meets laws accepted⟩

theorem saveWcharString_ascii {ws : PartitionName} (ascii : ∀ unit ∈ ws.text, unit.toNat < 128) :
    saveWcharString ws = ws.text.map (BitVec.truncate 8) := by
  unfold PartitionName.text at ascii ⊢
  unfold saveWcharString
  generalize ws.toList = units at ascii ⊢
  induction units with
  | nil => rfl
  | cons unit rest ih =>
    by_cases zero : unit = 0
    · simp [zero]
    · have kept : (unit :: rest).takeWhile (· ≠ 0) = unit :: rest.takeWhile (· ≠ 0) :=
        List.takeWhile_cons_of_pos (by simpa using zero)
      rw [kept] at ascii ⊢
      have head : unit.toNat < 128 := ascii unit List.mem_cons_self
      have low : (unit.truncate 8 : Byte) ≠ 0 := by
        intro none
        have value := congrArg BitVec.toNat none
        simp only [BitVec.truncate_eq_setWidth, BitVec.toNat_setWidth] at value
        apply zero
        apply BitVec.eq_of_toNat_eq
        change unit.toNat = 0
        change unit.toNat % 256 = 0 at value
        omega
      have tail := ih fun other member => ascii other (List.mem_cons_of_mem _ member)
      rw [List.map_cons, List.takeWhile_cons_of_pos (by simpa using low), List.map_cons, tail]

theorem signExtend_truncate {unit : BitVec 16} (ascii : unit.toNat < 128) :
    (unit.truncate 8 : Byte).signExtend 16 = unit := by
  have all : ∀ c : Fin 128, ((BitVec.ofNat 16 c.val).truncate 8 : Byte).signExtend 16 = BitVec.ofNat 16 c.val := by
    decide
  have value := all ⟨unit.toNat, ascii⟩
  rwa [BitVec.ofNat_toNat, BitVec.setWidth_eq] at value

theorem gptJsonSafe_packed {fd : Fd} (accepted : gptDetect fd = some p)
    (packed : p.hdr.sizeofPartitionEntry = 128)
    (ordered : ∀ i, i < p.numPartitionEntries → (p.slot i).Used → (p.slot i).startingLba ≤ (p.slot i).endingLba)
    (ascii : ∀ i, i < p.numPartitionEntries → (p.slot i).Used →
      ∀ unit ∈ (p.slot i).partitionName.text, unit.toNat < 128) :
    GptJsonSafe p ↔ p.hdr.myLba < p.hdr.firstUsableLba ∧
      (∀ i, i < p.numPartitionEntries → (p.slot i).Used → ∀ j, j ≤ i → (p.slot j).Used) ∧
      ∀ i, i < p.numPartitionEntries → (p.slot i).Used → (p.slot i).partitionName.text.length ≤ 35 := by
  obtain ⟨count, length, _⟩ := gptDetect_some accepted
  simp only [slot_packed packed] at ordered ascii ⊢
  have name : ∀ i, i < p.numPartitionEntries → (entryAt p.partitions i).Used →
      ((saveWcharString (entryAt p.partitions i).partitionName).take 35).map (BitVec.signExtend 16) =
        (entryAt p.partitions i).partitionName.text.take 35 := by
    intro i small used
    rw [saveWcharString_ascii (ascii i small used), ← List.map_take, List.map_map]
    conv_rhs => rw [← List.map_id ((entryAt p.partitions i).partitionName.text.take 35)]
    apply List.map_congr_left
    intro unit member
    exact signExtend_truncate (ascii i small used unit (List.mem_of_mem_take member))
  constructor
  · rintro ⟨usable, _, _, gapless, _, short⟩
    simp only [slot_packed packed] at gapless short
    refine ⟨usable, gapless, ?_⟩
    intro i small used
    have text := congrArg List.length ((name i small used).symm.trans (short i small used))
    rw [List.length_take] at text
    omega
  · rintro ⟨usable, gapless, short⟩
    refine ⟨usable, ?_, ?_, ?_, ?_, ?_⟩
    · intro k small _
      have area : p.partitions.length = 128 * p.numPartitionEntries := by
        rw [length, packed, count]
        rfl
      omega
    · intro e member none
      obtain ⟨i, within, place⟩ := List.getElem_of_mem member
      have small : i < p.numPartitionEntries := Nat.lt_of_lt_of_le within (usedFrom_length _ _ _)
      have used := usedFrom_before within i (le_refl i)
      have value := usedFrom_get small (usedFrom_before within)
      rw [List.getElem?_eq_getElem within, place] at value
      obtain rfl := Option.some.inj value
      have positive := used.1
      have order := ordered i small used
      bv_omega
    all_goals simp only [slot_packed packed]
    · exact gapless
    · exact fun i _ _ => ⟨rfl, rfl, rfl, rfl, rfl⟩
    · intro i small used
      rw [name i small used, List.take_of_length_le (short i small used)]

end Exact

def gptSample2 : GptHeader := { gptSample 2 with numPartitionEntries := 2 }

def gptGapEntries : List GptEntry := [GptEntry.zero, gptSampleEntry]

theorem gptSampleEntry_text : gptSampleEntry.partitionName.text = [] := by
  simp [gptSampleEntry, GptEntry.zero, PartitionName.text]

theorem gptJson_exact_sector2 : ∃ fd, gptDetect fd = some (gptWrittenTable (gptSample 2) [gptSampleEntry]) ∧
    GptJsonMeets cjsonTree (gptWrittenTable (gptSample 2) [gptSampleEntry]) := by
  obtain ⟨fd, accepted⟩ := gptWrittenTable_accepted (gptSample 2) [gptSampleEntry]
    ⟨by decide, by decide, by decide, by decide⟩ (by decide) (by decide) (by unfold EntriesApart; decide)
  refine ⟨fd, accepted, (gptJson_exact cjsonTree_lawful accepted).mpr ?_⟩
  have slot : ∀ i, i < 1 → (gptWrittenTable (gptSample 2) [gptSampleEntry]).slot i = gptSampleEntry := by
    intro i small
    obtain rfl : i = 0 := by omega
    exact gptWrittenTable_slot rfl (by decide)
  refine (gptJsonSafe_packed accepted rfl ?_ ?_).mpr ⟨?_, ?_, ?_⟩
  · intro i small _
    rw [slot i small]
    decide
  · intro i small _
    rw [slot i small, gptSampleEntry_text]
    exact fun unit none => absurd none List.not_mem_nil
  · show (gptWriteDefaults (gptSample 2)).myLba < (gptWriteDefaults (gptSample 2)).firstUsableLba
    rw [gptWriteDefaults_myLba (by decide)]
    decide
  · intro i small used j earlier
    have low : i < 1 := small
    rw [slot j (by omega)]
    decide
  · intro i small _
    rw [slot i small, gptSampleEntry_text]
    exact Nat.zero_le 35

/-- The entry behind an unused slot is lost. -/
theorem gptJson_gap : (∃ fd, gptDetect fd = some (gptWrittenTable gptSample2 gptGapEntries)) ∧
    (gptWrittenTable gptSample2 gptGapEntries).entries = [GptEntry.zero, gptSampleEntry] ∧
    ¬ GptJsonMeets cjsonTree (gptWrittenTable gptSample2 gptGapEntries) := by
  obtain ⟨fd, accepted⟩ := gptWrittenTable_accepted gptSample2 gptGapEntries
    ⟨by decide, by decide, by decide, by decide⟩ (by decide) (by decide) (by unfold EntriesApart; decide)
  have first : (gptWrittenTable gptSample2 gptGapEntries).slot 0 = GptEntry.zero :=
    gptWrittenTable_slot rfl (by decide)
  have second : (gptWrittenTable gptSample2 gptGapEntries).slot 1 = gptSampleEntry :=
    gptWrittenTable_slot rfl (by decide)
  refine ⟨⟨fd, accepted⟩, decodeEntries_encodeEntries gptGapEntries, ?_⟩
  intro meets
  have gapless := (meets.safe cjsonTree_lawful accepted).gapless 1 (by decide) (by
    rw [second]
    decide) 0 (by decide)
  rw [← slot_packed rfl, first] at gapless
  exact absurd gapless (by decide)

end ImgEditor
