import ImgEditor.Core.StructureFields

namespace ImgEditor

open Storage CText

section Table

variable {J : Type} {api : CJsonItems J} {children : J → List (CString × J)} {elements : J → List J}

namespace StructureEntry

structure Detected (item : StructureEntry J) (print : StructurePrint) : Prop where
  print_eq : item.print = some print
  saveJson_eq : item.saveJson = none
  loadJson_eq : item.loadJson = none
  sized : print.Sized item.size

/-- What loading the item from a saved record writes into another record. -/
def written (item : StructureEntry J) (base init : List Byte) : FieldWrite :=
  (item.offset, (item.print.getD .other).loaded (field base item.offset item.size) (field init item.offset item.size))

def member (forcedEndian : StructureEndian) (item : StructureEntry J) (base : List Byte) : CString × JsonValue :=
  (item.name, (item.print.getD .other).saved forcedEndian (field base item.offset item.size))

end StructureEntry

/-- A table of items with detected types, over a record of some length. -/
structure DetectedTable (items : List (StructureEntry J)) (length : Nat) : Prop where
  detected : ∀ item ∈ items, ∃ print, item.Detected print
  inside : ∀ item ∈ items, item.offset + item.size ≤ length
  disjoint : items.Pairwise fun a b => a.offset + a.size ≤ b.offset ∨ b.offset + b.size ≤ a.offset
  names : (items.filter fun item => !item.notSave).Pairwise fun a b => sameName a.name b.name = false

def savedEntries (items : List (StructureEntry J)) : List (StructureEntry J) := items.filter fun item => !item.notSave

theorem mem_savedEntries {items : List (StructureEntry J)} {item : StructureEntry J} :
    item ∈ savedEntries items ↔ item ∈ items ∧ item.notSave = false := by
  simp [savedEntries]

theorem saveStructureJson_saved (forcedEndian : StructureEndian) (json : J) (base : List Byte)
    (items : List (StructureEntry J)) :
    saveStructureJson api forcedEndian json base items =
      saveStructureJson api forcedEndian json base (savedEntries items) := by
  induction items generalizing json with
  | nil => rfl
  | cons item rest ih =>
    unfold saveStructureJson savedEntries at ih ⊢
    cases skipped : item.notSave with
    | true => 
      rw [List.filter_cons_of_neg (by simp [skipped]), List.foldlM_cons, StructureEntry.save, if_pos skipped]
      exact ih json
    | false =>
      rw [List.filter_cons_of_pos (by simp [skipped]), List.foldlM_cons, List.foldlM_cons]
      exact congrArg _ (funext ih)

theorem loadStructureJson_saved (forcedEndian : StructureEndian) (json : J) (base : List Byte)
    (items : List (StructureEntry J)) :
    loadStructureJson api forcedEndian json base items =
      loadStructureJson api forcedEndian json base (savedEntries items) := by
  induction items generalizing base with
  | nil => rfl
  | cons item rest ih =>
    unfold loadStructureJson savedEntries at ih ⊢
    cases skipped : item.notSave with
    | true => 
      rw [List.filter_cons_of_neg (by simp [skipped]), List.foldlM_cons, StructureEntry.load, if_pos skipped]
      exact ih base
    | false =>
      rw [List.filter_cons_of_pos (by simp [skipped]), List.foldlM_cons, List.foldlM_cons]
      exact congrArg _ (funext ih)

theorem saveStructureJson_members (laws : api.Lawful children elements) (forcedEndian : StructureEndian)
    (base : List Byte) {items : List (StructureEntry J)}
    (detected : ∀ item ∈ items, item.notSave = false ∧ ∃ print, item.Detected print)
    (inside : ∀ item ∈ items, item.offset + item.size ≤ base.length)
    (names : items.Pairwise fun a b => sameName a.name b.name = false) {json : J}
    {members : List (CString × JsonValue)} (held : JsonMembers api children elements json members)
    (fresh : ∀ member ∈ members, ∀ item ∈ items, sameName member.1 item.name = false) :
    ∃ result, saveStructureJson api forcedEndian json base items = some result ∧
      JsonMembers api children elements result (members ++ items.map fun item => item.member forcedEndian base) := by
  induction items generalizing json members with
  | nil => exact ⟨json, rfl, by simpa using held⟩
  | cons item rest ih =>
    obtain ⟨unlike, namesRest⟩ := List.pairwise_cons.mp names
    obtain ⟨kept, print, type⟩ := detected item List.mem_cons_self
    have size := field_length (inside item List.mem_cons_self)
    have sized : print.Sized (field base item.offset item.size).length := by
      rw [size]
      exact type.sized
    obtain ⟨functions, next, available, saved, added⟩ := availableType_save forcedEndian laws sized held
      fun member at_ => fresh member at_ item List.mem_cons_self
    obtain ⟨result, run, final⟩ := ih (fun other at_ => detected other (List.mem_cons_of_mem _ at_))
      (fun other at_ => inside other (List.mem_cons_of_mem _ at_)) namesRest added (by
        intro member at_ other among
        rcases List.mem_append.mp at_ with old | new
        · exact fresh member old other (List.mem_cons_of_mem _ among)
        · rw [List.mem_singleton.mp new]
          exact unlike other among)
    have step : item.save api forcedEndian json base = some next := by
      simp only [StructureEntry.save, kept, type.saveJson_eq, type.print_eq, getStructureItemType, Option.bind_some, available,
        Option.map_some, Option.none_or]
      exact saved
    refine ⟨result, ?_, ?_⟩
    · rw [saveStructureJson, List.foldlM_cons, step]
      exact run
    · rw [List.map_cons, StructureEntry.member, type.print_eq]
      rwa [List.append_assoc] at final

theorem StructureEntry.Detected.loads (laws : api.Lawful children elements) (forcedEndian : StructureEndian)
    {item : StructureEntry J} {print : StructurePrint} (type : item.Detected print) (kept : item.notSave = false)
    {base r : List Byte} (inside : item.offset + item.size ≤ base.length) (sizes : r.length = base.length) {json found : J}
    (get : api.getObjectItem json item.name = some found)
    (holds : (item.member forcedEndian base).2.Held api elements found) :
    item.load api forcedEndian json r =
      some (setField r (item.written base r).1 (item.written base r).2) := by
  have size := field_length inside
  have target : (field r item.offset item.size).length = (field base item.offset item.size).length := by
    rw [size, field_length (by rw [sizes]; exact inside)]
  simp only [StructureEntry.member, type.print_eq, Option.getD_some] at holds
  obtain ⟨functions, available, loaded⟩ := availableType_load forcedEndian laws (by rw [size]; exact type.sized) target
    get holds
  simp only [StructureEntry.load, kept, type.loadJson_eq, type.print_eq, getStructureItemType, Option.bind_some, available,
    StructureEntry.written, Option.getD_some]
  simp only [Bool.false_eq_true, if_false, Option.map_some, Option.none_or, Option.bind_eq_bind, Option.bind_some, loaded]

theorem StructureEntry.written_length {item : StructureEntry J} {base r : List Byte}
    (inside : item.offset + item.size ≤ base.length) (sizes : r.length = base.length) :
    (item.written base r).2.length = item.size := by
  rw [StructureEntry.written, StructurePrint.loaded_length, field_length inside]
  rw [field_length inside, field_length (by rw [sizes]; exact inside)]

theorem loadStructureJson_written (laws : api.Lawful children elements) (forcedEndian : StructureEndian)
    {base init : List Byte} (sizes : init.length = base.length) {json : J} {items : List (StructureEntry J)}
    (detected : ∀ item ∈ items, item.notSave = false ∧ ∃ print, item.Detected print)
    (inside : ∀ item ∈ items, item.offset + item.size ≤ base.length)
    (disjoint : items.Pairwise fun a b => a.offset + a.size ≤ b.offset ∨ b.offset + b.size ≤ a.offset)
    (found : ∀ item ∈ items, ∃ member, api.getObjectItem json item.name = some member ∧
      (item.member forcedEndian base).2.Held api elements member) {r : List Byte} (length : r.length = init.length)
    (fresh : ∀ item ∈ items, field r item.offset item.size = field init item.offset item.size) :
    loadStructureJson api forcedEndian json r items =
      some (setFields r (items.map fun item => item.written base init)) := by
  induction items generalizing r with
  | nil => rfl
  | cons item rest ih =>
    obtain ⟨apart, disjointRest⟩ := List.pairwise_cons.mp disjoint
    obtain ⟨kept, print, type⟩ := detected item List.mem_cons_self
    obtain ⟨member, get, holds⟩ := found item List.mem_cons_self
    have here := inside item List.mem_cons_self
    have step := type.loads laws forcedEndian kept here (length.trans sizes) get holds
    have same : item.written base r = item.written base init := by
      rw [StructureEntry.written, StructureEntry.written, fresh item List.mem_cons_self]
    have width := item.written_length here sizes
    have room : (item.written base init).1 + (item.written base init).2.length ≤ r.length := by
      rw [width, length, sizes]
      exact here
    have tail := ih (fun other at_ => detected other (List.mem_cons_of_mem _ at_))
      (fun other at_ => inside other (List.mem_cons_of_mem _ at_)) disjointRest
      (fun other at_ => found other (List.mem_cons_of_mem _ at_)) (by rw [setField_length room, length]) (by
        intro other at_
        rw [field_setField_apart room, fresh other (List.mem_cons_of_mem _ at_)]
        rw [width]
        exact (apart other at_).symm)
    rw [loadStructureJson, List.foldlM_cons, step, same]
    rw [List.map_cons, setFields, List.foldl_cons]
    exact tail

end Table

namespace StructurePrint

/-- The bytes of a field that its saved form leaves out are in the other field already. -/
def Carried (print : StructurePrint) (field addr : List Byte) : Prop :=
  match print with
  | .string => field = [] ∨ (cString field).length < field.length ∧
      addr.drop ((cString field).length + 1) = field.drop ((cString field).length + 1)
  | .x32Array => addr.drop (field.length / 4 * 4) = field.drop (field.length / 4 * 4)
  | _ => True

theorem loaded_eq_iff (print : StructurePrint) {field addr : List Byte} (sizes : addr.length = field.length) :
    print.loaded field addr = field ↔ print.Carried field addr := by
  cases print with
  | string => exact snprintfString_eq_iff sizes
  | x32Array =>
    have split := List.take_append_drop (field.length / 4 * 4) field
    unfold loaded Carried
    constructor
    · intro same
      exact List.append_cancel_left (same.trans split.symm)
    · intro behind
      rw [behind, split]
  | _ => exact iff_of_true rfl trivial

end StructurePrint

section RoundTrip

variable {J : Type} {api : CJsonItems J} {children : J → List (CString × J)} {elements : J → List J}

/-- Loading the saved form of a record into another record succeeds, restores the saved fields and changes no other
byte. -/
def StructureJsonRestores (api : CJsonItems J) (forcedEndian : StructureEndian) (items : List (StructureEntry J))
    (base init : List Byte) : Prop :=
  ∃ json restored, saveStructureJson api forcedEndian api.createObject base items = some json ∧
    loadStructureJson api forcedEndian json init items = some restored ∧ restored.length = init.length ∧
    (∀ item ∈ items, item.notSave = false →
      field restored item.offset item.size = field base item.offset item.size) ∧
    ∀ offset width, (∀ item ∈ items, item.notSave = false →
      offset + width ≤ item.offset ∨ item.offset + item.size ≤ offset) →
      field restored offset width = field init offset width

theorem structureJson_found (laws : api.Lawful children elements) (forcedEndian : StructureEndian) {base : List Byte}
    {items : List (StructureEntry J)} (names : items.Pairwise fun a b => sameName a.name b.name = false) {json : J}
    (held : JsonMembers api children elements json (items.map fun item => item.member forcedEndian base))
    {item : StructureEntry J} (among : item ∈ items) :
    ∃ member, api.getObjectItem json item.name = some member ∧
      (item.member forcedEndian base).2.Held api elements member := by
  have first : (items.map fun item => item.member forcedEndian base).find? (fun member => sameName member.1 item.name) =
      some (item.member forcedEndian base) := by
    clear held
    induction items with
    | nil => exact absurd among List.not_mem_nil
    | cons head rest ih =>
      obtain ⟨unlike, namesRest⟩ := List.pairwise_cons.mp names
      rw [List.map_cons]
      rcases List.mem_cons.mp among with rfl | later
      · exact List.find?_cons_of_pos (sameName_self _)
      · rw [List.find?_cons_of_neg (by simp [StructureEntry.member, unlike item later])]
        exact ih namesRest later
  have get := held.get laws item.name
  rw [first] at get
  cases found : api.getObjectItem json item.name with
  | none =>
    rw [found] at get
    cases get
  | some member =>
    rw [found] at get
    cases get with
    | some holds => exact ⟨member, rfl, holds⟩

end RoundTrip

section Records

variable {J : Type} {api : CJsonItems J}

def TableItem.entry (item : TableItem) : StructureEntry J where
  name := cstr item.name
  offset := item.offset
  size := item.size
  print := some (match item.print with
    | .unsigned => .unsigned
    | .xunsigned => .xunsigned
    | .string => .string)
  saveJson := none
  loadJson := none
  notSave := item.notSave

theorem TableItem.Fits.width {item : TableItem} {length : Nat} (fits : item.Fits length) (number : item.print ≠ .string) :
    NumberWidth item.size := by
  rcases fits.size with text | four | eight
  · exact absurd text.1 number
  · exact .inr (.inr (.inl four))
  · exact .inr (.inr (.inr eight))

theorem TableItem.entry_save {item : TableItem} {base : List Byte} (fits : item.Fits base.length)
    (kept : item.notSave = false) (json : J) :
    item.entry.save api .forceNone json base =
      some (if item.toItem.createOrUpdate then
          jsonCreateOrUpdateStringValue api.toCJson json item.toItem.name (item.toItem.saveJson base)
        else api.addStringToObject json item.toItem.name (item.toItem.saveJson base)) := by
  have length := field_length fits.inside
  cases shape : item.print with
  | string => simp [StructureEntry.save, entry, kept, shape, getStructureItemType, availableType, saveJsonString, toItem,
      TableItem.saveJson]
  | unsigned =>
    have text : snprintfUnsigned true (field base item.offset item.size) = item.saveJson base := by
      rw [TableItem.saveJson, shape]
      rcases fits.width (by rw [shape]; decide) with size | size | size | size
      all_goals
        rw [size] at length
        simp [snprintfUnsigned, length, size, toCpu, leField_eq]
    simp [StructureEntry.save, entry, kept, shape, getStructureItemType, availableType, saveJsonUnsigned, toItem,
      structureEndianPreferLe, text]
  | xunsigned =>
    have text : snprintfXunsigned true (field base item.offset item.size) = item.saveJson base := by
      rw [snprintfXunsigned_eq (by rw [length]; exact fits.width (by rw [shape]; decide)), length, TableItem.saveJson,
        shape]
      rfl
    simp [StructureEntry.save, entry, kept, shape, getStructureItemType, availableType, saveJsonXunsigned, toItem,
      structureEndianPreferLe, text]

theorem TableItem.entry_load {item : TableItem} {base : List Byte} (fits : item.Fits base.length)
    (kept : item.notSave = false) (json : J) :
    item.entry.load api .forceNone json base =
      (jsonGetStringValueInObject api.toCJson json item.toItem.name).bind fun s => item.toItem.loadJson s base := by
  have length := field_length fits.inside
  have number (base' : Nat) (width : NumberWidth item.size) :
      (loadSetJsonValue api .forceNone true base' json (cstr item.name) (field base item.offset item.size)).bind
        (fun addr => some (setField base item.offset addr)) =
      (jsonGetStringValueInObject api.toCJson json (cstr item.name)).bind fun s =>
        (strictStrtoull s base').map fun n => setField base item.offset (leBytes item.size n) := by
    cases text : jsonGetStringValueInObject api.toCJson json (cstr item.name) with
    | none => simp [loadSetJsonValue, text]
    | some s =>
      cases parsed : strictStrtoull s base' with
      | none => simp [loadSetJsonValue, text, parsed]
      | some n => simp [loadSetJsonValue, text, parsed, length, structureItemSetUnsigned_width width, fromCpu,
          structureEndianPreferLe]
  cases shape : item.print with
  | string =>
    have positive := fits.positive
    have wide (s : CString) : (s.take (item.size - 1) ++ [0#8]).length ≤ item.size := by
      rw [List.length_append, List.length_take, List.length_singleton]
      omega
    have written (s : CString) : setField base item.offset (snprintfString s (field base item.offset item.size)) =
        setField base item.offset (s.take (item.size - 1) ++ [0#8]) := by
      have front (addr bytes : List Byte) : setField addr 0 bytes = bytes ++ addr.drop bytes.length := by simp [setField]
      rw [snprintfString, if_neg (by omega), length, front, setField_front fits.inside (wide s)]
    cases text : jsonGetStringValueInObject api.toCJson json (cstr item.name) with
    | none => simp [StructureEntry.load, entry, kept, shape, getStructureItemType, availableType, loadJsonString, toItem, text]
    | some s => simp [StructureEntry.load, entry, kept, shape, getStructureItemType, availableType, loadJsonString, toItem,
        TableItem.loadJson, text, written]
  | unsigned =>
    have read := number 10 (fits.width (by rw [shape]; decide))
    simpa [StructureEntry.load, entry, kept, shape, getStructureItemType, availableType, toItem, TableItem.loadJson] using read
  | xunsigned =>
    have read := number 16 (fits.width (by rw [shape]; decide))
    simpa [StructureEntry.load, entry, kept, shape, getStructureItemType, availableType, toItem, TableItem.loadJson] using read

theorem saveStructureJson_records {items : List TableItem} {base : List Byte}
    (fits : ∀ item ∈ items, item.notSave = false → item.Fits base.length) (json : J) :
    saveStructureJson api .forceNone json base (items.map TableItem.entry) =
      some (structureSaveJson api.toCJson json base (savedItems items)) := by
  induction items generalizing json with
  | nil => rfl
  | cons item rest ih =>
    have later := fun json => ih (fun other member => fits other (List.mem_cons_of_mem _ member)) json
    unfold saveStructureJson structureSaveJson savedItems at later ⊢
    rw [List.map_cons, List.foldlM_cons]
    cases skipped : item.notSave with
    | true =>
      have step : item.entry.save api .forceNone json base = some json := if_pos skipped
      rw [List.filter_cons_of_neg (by simp [skipped]), step]
      exact later json
    | false =>
      rw [List.filter_cons_of_pos (by simp [skipped]), (item.entry_save (fits item List.mem_cons_self skipped) skipped json)]
      exact later _

theorem loadStructureJson_records {items : List TableItem} {base : List Byte}
    (fits : ∀ item ∈ items, item.notSave = false → item.Fits base.length) (json : J) :
    loadStructureJson api .forceNone json base (items.map TableItem.entry) =
      structureLoadJson api.toCJson json base (savedItems items) := by
  induction items generalizing base with
  | nil => rfl
  | cons item rest ih =>
    unfold loadStructureJson structureLoadJson savedItems at ih ⊢
    rw [List.map_cons, List.foldlM_cons]
    cases skipped : item.notSave with
    | true =>
      have step : item.entry.load api .forceNone json base = some base := if_pos skipped
      rw [List.filter_cons_of_neg (by simp [skipped]), step]
      exact ih fun other member => fits other (List.mem_cons_of_mem _ member)
    | false =>
      have here := fits item List.mem_cons_self skipped
      rw [List.filter_cons_of_pos (by simp [skipped]), item.entry_load here skipped json, List.map_cons, List.foldlM_cons]
      cases text : jsonGetStringValueInObject api.toCJson json item.toItem.name with
      | none => rfl
      | some s =>
        simp only [Option.bind_some, Option.bind_eq_bind]
        cases loaded : item.toItem.loadJson s base with
        | none => rfl
        | some next =>
          have length := TableItem.loadJson_length here loaded
          apply ih
          rw [length]
          exact fun other member => fits other (List.mem_cons_of_mem _ member)

end Records

/-- A record of a name, two numbers of which one is not saved, and a table of words. -/
def sampleTable : List (StructureEntry CJsonTree) :=
  [⟨cstr "name", 0, 4, some .string, none, none, false⟩, ⟨cstr "crc32", 4, 4, some .xunsigned, none, none, true⟩,
    ⟨cstr "count", 8, 2, some .beUnsigned, none, none, false⟩, ⟨cstr "words", 10, 6, some .x32Array, none, none, false⟩]

def sampleRecord : List Byte := [98, 0, 0, 0, 1, 2, 3, 4, 0xff, 0xfe, 0x80, 0, 0, 1, 0, 0]

theorem sampleTable_detected : DetectedTable sampleTable sampleRecord.length where
  detected := by
    intro item among
    simp only [sampleTable, List.mem_cons, List.not_mem_nil, or_false] at among
    rcases among with rfl | rfl | rfl | rfl
    · exact ⟨.string, rfl, rfl, rfl, trivial⟩
    · exact ⟨.xunsigned, rfl, rfl, rfl, by decide⟩
    · exact ⟨.beUnsigned, rfl, rfl, rfl, by decide⟩
    · exact ⟨.x32Array, rfl, rfl, rfl, trivial⟩
  inside := by decide
  disjoint := by decide
  names := by decide

end ImgEditor
