import ImgEditor.Core.StructureJson

namespace ImgEditor

open Storage CText

section Numbers

theorem toCpu_lt (le : Bool) (un : List Byte) : toCpu le un < 256 ^ un.length := by
  unfold toCpu
  split
  · exact leNumber_lt un
  · have bound := leNumber_lt un.reverse
    rwa [List.length_reverse] at bound

theorem fromCpu_toCpu (le : Bool) (un : List Byte) : fromCpu le un.length (toCpu le un) = un := by
  cases le with
  | true => exact leBytes_leNumber un
  | false =>
    have encoded := leBytes_leNumber un.reverse
    rw [List.length_reverse] at encoded
    simp [fromCpu, toCpu, encoded]

theorem fromCpu_mod (le : Bool) (sz n : Nat) : fromCpu le sz (n % 256 ^ sz) = fromCpu le sz n := by
  unfold fromCpu
  rw [leBytes_mod]

theorem toCpu_single {un : List Byte} (single : un.length = 1) (le : Bool) : toCpu le un = leNumber un := by
  obtain ⟨u8, rfl⟩ := List.length_eq_one_iff.mp single
  cases le <;> rfl

theorem leBytes_single (n : Nat) (le : Bool) : leBytes 1 n = fromCpu le 1 n := by
  cases le <;> rfl

/-- The widths that the functions for numbers know. -/
def NumberWidth (sz : Nat) : Prop := sz = 1 ∨ sz = 2 ∨ sz = 4 ∨ sz = 8

instance (sz : Nat) : Decidable (NumberWidth sz) := inferInstanceAs (Decidable (_ ∨ _))

theorem structureItemSetUnsigned_width {sz : Nat} (width : NumberWidth sz) (le : Bool) (un : Nat) :
    structureItemSetUnsigned sz le un = some (fromCpu le sz un) := by
  rcases width with rfl | rfl | rfl | rfl
  · exact congrArg some (leBytes_single un le)
  · rfl
  · rfl
  · rfl

theorem snprintfUnsigned_read {un : List Byte} (width : NumberWidth un.length) (le : Bool) :
    ∃ n, strictStrtoull (snprintfUnsigned le un) 10 = some n ∧ n % 256 ^ un.length = toCpu le un := by
  have bound := toCpu_lt le un
  have exact (small : toCpu le un < 2 ^ 64) :
      ∃ n, strictStrtoull (decimal (toCpu le un)) 10 = some n ∧ n % 256 ^ un.length = toCpu le un :=
    ⟨_, strictStrtoull_decimal_lt small, Nat.mod_eq_of_lt bound⟩
  rcases width with size | size | size | size
  · have printed : snprintfUnsigned le un = decimal (toCpu le un) := by
      rw [toCpu_single size]
      simp only [snprintfUnsigned, size]
    rw [printed]
    exact exact (by rw [size] at bound; omega)
  · have printed : snprintfUnsigned le un = decimal (toCpu le un) := by simp only [snprintfUnsigned, size]
    rw [printed]
    exact exact (by rw [size] at bound; omega)
  · have printed : snprintfUnsigned le un = snprintfUnsigned32 (BitVec.ofNat 32 (toCpu le un)) := by
      simp only [snprintfUnsigned, size]
    obtain ⟨n, parsed, same⟩ := Option.map_eq_some_iff.mp
      (strictStrtoull_unsigned32 (BitVec.ofNat 32 (toCpu le un)))
    have congruent := congrArg BitVec.toNat same
    rw [BitVec.toNat_ofNat, BitVec.toNat_ofNat] at congruent
    rw [size] at bound
    rw [printed, size]
    exact ⟨n, parsed, by omega⟩
  · have printed : snprintfUnsigned le un = decimal (toCpu le un) := by simp only [snprintfUnsigned, size]
    rw [printed]
    exact exact (by rw [size] at bound; omega)

theorem snprintfXunsigned_eq {un : List Byte} (width : NumberWidth un.length) (le : Bool) :
    snprintfXunsigned le un = 48#8 :: 120#8 :: hexFixed (2 * un.length) (toCpu le un) := by
  rcases width with size | size | size | size
  · rw [toCpu_single size]
    simp only [snprintfXunsigned, size]
  · simp only [snprintfXunsigned, size]
  · simp only [snprintfXunsigned, size]
  · simp only [snprintfXunsigned, size]

theorem snprintfXunsigned_read {un : List Byte} (width : NumberWidth un.length) (le : Bool) :
    strictStrtoull (snprintfXunsigned le un) 16 = some (toCpu le un) := by
  have bound := toCpu_lt le un
  have digits : toCpu le un < 16 ^ (2 * un.length) := by
    rw [Nat.pow_mul]
    exact bound
  rw [snprintfXunsigned_eq width]
  apply strictStrtoull_hexFixed _ digits
  · rcases width with size | size | size | size
    all_goals
      rw [size] at bound
      omega
  · rcases width with size | size | size | size
    all_goals omega

theorem strictStrtol_hexFixed {width n : Nat} (positive : 0 < width) (fits : n < 16 ^ width) (small : n < 2 ^ 63) :
    strictStrtol (48#8 :: 120#8 :: hexFixed width n) 16 = some (n : Int) := by
  have number := strtol_hexFixed positive fits small
  rw [strictStrtol, show (48#8 :: 120#8 :: hexFixed width n : CString) = 48 :: 120 :: hexFixed width n from rfl, number]
  rfl

end Numbers

section Arrays

variable {J : Type} {api : CJsonItems J} {children : J → List (CString × J)} {elements : J → List J}

def arrayTexts (width : Nat) (text : List Byte → CString) (addr : List Byte) (i count : Nat) : List CString :=
  (List.range' i count).map fun i => text (field addr (i * width) width)

theorem saveJsonItems_strings (laws : api.Lawful children elements) (width : Nat) (text : List Byte → CString)
    (addr : List Byte) :
    api.isArray (saveJsonItems api width text api.createArray addr) = true ∧
      (elements (saveJsonItems api width text api.createArray addr)).map api.getStringValue =
        (arrayTexts width text addr 0 (addr.length / width)).map some := by
  have loop (indices : List Nat) (array : J) (isArray : api.isArray array = true) :
      api.isArray (indices.foldl (fun array i =>
        api.addItemToArray array (api.createString (text (field addr (i * width) width)))) array) = true ∧
      elements (indices.foldl (fun array i =>
        api.addItemToArray array (api.createString (text (field addr (i * width) width)))) array) =
        elements array ++ indices.map fun i => api.createString (text (field addr (i * width) width)) := by
    induction indices generalizing array with
    | nil => exact ⟨isArray, (List.append_nil _).symm⟩
    | cons i rest ih =>
      obtain ⟨kept, added⟩ := ih (api.addItemToArray array (api.createString (text (field addr (i * width) width))))
        (by rw [laws.array_add, isArray])
      rw [laws.elements_add] at added
      exact ⟨kept, by rw [List.foldl_cons, added, List.append_assoc]; rfl⟩
  obtain ⟨isArray, strings⟩ := loop (List.range (addr.length / width)) api.createArray laws.array_create
  rw [laws.elements_create, List.nil_append] at strings
  constructor
  · exact isArray
  · rw [saveJsonItems, strings, arrayTexts, List.range_eq_range', List.map_map, List.map_map]
    exact List.map_congr_left fun i _ => laws.string_value _

theorem setField_next {saved addr : List Byte} {width i : Nat} (inside : (i + 1) * width ≤ saved.length) :
    setField (saved.take (i * width) ++ addr.drop (i * width)) (i * width) (field saved (i * width) width) =
      saved.take ((i + 1) * width) ++ addr.drop ((i + 1) * width) := by
  rw [Nat.succ_mul] at inside ⊢
  have front : (saved.take (i * width)).length = i * width := by
    rw [List.length_take]
    omega
  rw [setField, field_length inside, List.take_left' front, take_field, ← List.drop_drop, List.drop_left' front,
    List.drop_drop]

theorem loadJsonItems_texts {width : Nat} {text : List Byte → CString} {store : Int → List Byte}
    (reads : ∀ chunk : List Byte, chunk.length = width → ∃ n, strictStrtol (text chunk) 16 = some n ∧ store n = chunk)
    (positive : 0 < width) {saved addr : List Byte} (sizes : addr.length = saved.length) (items : List J) (i count : Nat)
    (whole : i + count = saved.length / width)
    (strings : items.map api.getStringValue = (arrayTexts width text saved i count).map some) :
    loadJsonItems api width store items i (saved.take (i * width) ++ addr.drop (i * width)) =
      some (saved.take (saved.length / width * width) ++ addr.drop (saved.length / width * width)) := by
  induction count generalizing items i with
  | zero =>
    obtain rfl : items = [] := by simpa [arrayTexts] using strings
    rw [loadJsonItems, ← whole, Nat.add_zero]
  | succ count ih =>
    rw [arrayTexts, List.range'_succ, List.map_cons, List.map_cons] at strings
    obtain ⟨item, rest, rfl, first, others⟩ := List.map_eq_cons_iff.mp strings
    have inside : (i + 1) * width ≤ saved.length :=
      (Nat.mul_le_mul_right width (by omega)).trans (Nat.div_mul_le_self saved.length width)
    have length : (saved.take (i * width) ++ addr.drop (i * width)).length = saved.length := by
      rw [Nat.succ_mul] at inside
      rw [List.length_append, List.length_take, List.length_drop]
      omega
    obtain ⟨n, parsed, stored⟩ := reads (field saved (i * width) width)
      (field_length (by rw [Nat.succ_mul] at inside; exact inside))
    have next := ih rest (i + 1) (by omega) others
    rw [← setField_next inside, ← stored] at next
    rw [loadJsonItems, length, if_pos (by omega), first, Option.bind_eq_bind, Option.bind_some, parsed,
      Option.bind_eq_bind, Option.bind_some]
    exact next

end Arrays

section Members

variable {J : Type} {api : CJsonItems J} {children : J → List (CString × J)} {elements : J → List J}

inductive JsonValue where
  | text (s : CString)
  | strings (ss : List CString)
deriving DecidableEq, Repr

def JsonValue.Held (api : CJsonItems J) (elements : J → List J) (item : J) : JsonValue → Prop
  | .text s => api.getStringValue item = some s
  | .strings ss => api.isArray item = true ∧ (elements item).map api.getStringValue = ss.map some

/-- The object has exactly these members, in this order. -/
def JsonMembers (api : CJsonItems J) (children : J → List (CString × J)) (elements : J → List J) (o : J)
    (members : List (CString × JsonValue)) : Prop :=
  List.Forall₂ (fun child member => child.1 = member.1 ∧ member.2.Held api elements child.2) (children o) members

theorem JsonMembers.create (laws : api.Lawful children elements) :
    JsonMembers api children elements api.createObject [] := by
  rw [JsonMembers, laws.children_create]
  exact .nil

theorem JsonMembers.addItem {o : J} {members : List (CString × JsonValue)} (laws : api.Lawful children elements)
    (held : JsonMembers api children elements o members) (name : CString) {item : J} {value : JsonValue}
    (holds : value.Held api elements item) :
    JsonMembers api children elements (api.addItemToObject o name item) (members ++ [(name, value)]) := by
  rw [JsonMembers, laws.children_item]
  exact List.rel_append held (.cons ⟨rfl, holds⟩ .nil)

theorem JsonMembers.addString {o : J} {members : List (CString × JsonValue)} (laws : api.Lawful children elements)
    (held : JsonMembers api children elements o members) (name value : CString) :
    JsonMembers api children elements (api.addStringToObject o name value) (members ++ [(name, .text value)]) := by
  obtain ⟨item, shape, string⟩ := laws.children_string o name value
  rw [JsonMembers, shape]
  exact List.rel_append held (.cons ⟨rfl, string⟩ .nil)

theorem JsonMembers.get {o : J} {members : List (CString × JsonValue)} (laws : api.Lawful children elements)
    (held : JsonMembers api children elements o members) (name : CString) :
    Option.Rel (fun item member => member.2.Held api elements item) (api.getObjectItem o name)
      (members.find? fun member => sameName member.1 name) := by
  rw [laws.get_item]
  unfold JsonMembers at held
  generalize children o = named at held ⊢
  induction held with
  | nil => exact .none
  | @cons child member _ _ head _ ih =>
    obtain ⟨key, holds⟩ := head
    cases found : sameName member.1 name with
    | true =>
      simp only [List.find?_cons, key, found]
      exact .some holds
    | false =>
      simp only [List.find?_cons, key, found]
      exact ih

end Members

section Types

variable {J : Type} (api : CJsonItems J) (forcedEndian : StructureEndian)

namespace StructurePrint

def saved (print : StructurePrint) (addr : List Byte) : JsonValue :=
  match print with
  | .string => .text (cString addr)
  | .unsigned => .text (snprintfUnsigned (structureEndianPreferLe forcedEndian true) addr)
  | .beUnsigned => .text (snprintfUnsigned (structureEndianPreferLe forcedEndian false) addr)
  | .xunsigned => .text (snprintfXunsigned (structureEndianPreferLe forcedEndian true) addr)
  | .beXunsigned => .text (snprintfXunsigned (structureEndianPreferLe forcedEndian false) addr)
  | .x8Array => .strings (arrayTexts 1 (fun u8 => 48#8 :: 120#8 :: hexFixed 2 (leNumber u8)) addr 0 (addr.length / 1))
  | .x32Array => .strings (arrayTexts 4
      (fun n32 => 48#8 :: 120#8 :: hexFixed 8 (toCpu (structureEndianPreferLe forcedEndian true) n32)) addr 0
      (addr.length / 4))
  | .other => .text []

/-- What loading a saved field makes of a field with other bytes. -/
def loaded (print : StructurePrint) (field addr : List Byte) : List Byte :=
  match print with
  | .string => snprintfString (cString field) addr
  | .x32Array => field.take (field.length / 4 * 4) ++ addr.drop (field.length / 4 * 4)
  | _ => field

def Sized (print : StructurePrint) (sz : Nat) : Prop :=
  match print with
  | .string | .x8Array | .x32Array => True
  | .unsigned | .beUnsigned | .xunsigned | .beXunsigned => NumberWidth sz
  | .other => False

instance (print : StructurePrint) (sz : Nat) : Decidable (print.Sized sz) := by
  cases print <;> unfold Sized <;> infer_instance

end StructurePrint

variable {api} {children : J → List (CString × J)} {elements : J → List J}

theorem availableType_save (laws : api.Lawful children elements) {print : StructurePrint}
    {addr : List Byte} (sized : print.Sized addr.length) {o : J} {members : List (CString × JsonValue)}
    (held : JsonMembers api children elements o members) {name : CString}
    (fresh : ∀ member ∈ members, sameName member.1 name = false) :
    ∃ type json, availableType api forcedEndian print = some type ∧ type.saveJson o name addr = some json ∧
      JsonMembers api children elements json (members ++ [(name, print.saved forcedEndian addr)]) := by
  have added (value : CString) := held.addString laws name value
  cases print with
  | string =>
    have absent := held.get laws name
    rw [List.find?_eq_none.mpr fun member inside => by simp [fresh member inside]] at absent
    have missing : api.getObjectItem o name = none := by
      cases found : api.getObjectItem o name with
      | none => rfl
      | some item =>
        rw [found] at absent
        cases absent
    refine ⟨_, _, rfl, rfl, ?_⟩
    rw [jsonCreateOrUpdateStringValue, missing]
    exact added _
  | unsigned => exact ⟨_, _, rfl, rfl, added _⟩
  | beUnsigned => exact ⟨_, _, rfl, rfl, added _⟩
  | xunsigned => exact ⟨_, _, rfl, rfl, added _⟩
  | beXunsigned => exact ⟨_, _, rfl, rfl, added _⟩
  | x8Array => exact ⟨_, _, rfl, rfl, held.addItem laws name (saveJsonItems_strings laws 1 _ addr)⟩
  | x32Array => exact ⟨_, _, rfl, rfl, held.addItem laws name (saveJsonItems_strings laws 4 _ addr)⟩
  | other => exact sized.elim

theorem loadSetJsonValue_loaded {un addr : List Byte} (width : NumberWidth un.length) (sizes : addr.length = un.length)
    {le : Bool} {base n : Nat} {json : J} {name s : CString}
    (found : jsonGetStringValueInObject api.toCJson json name = some s) (parsed : strictStrtoull s base = some n)
    (value : n % 256 ^ un.length = toCpu (structureEndianPreferLe forcedEndian le) un) :
    loadSetJsonValue api forcedEndian le base json name addr = some un := by
  have stored : fromCpu (structureEndianPreferLe forcedEndian le) un.length n = un := by
    rw [← fromCpu_mod, value, fromCpu_toCpu]
  rw [loadSetJsonValue, found, Option.bind_eq_bind, Option.bind_some, parsed, Option.bind_eq_bind, Option.bind_some, sizes,
    structureItemSetUnsigned_width width, stored]

theorem x8_read (chunk : List Byte) (single : chunk.length = 1) :
    ∃ n, strictStrtol (48#8 :: 120#8 :: hexFixed 2 (leNumber chunk)) 16 = some n ∧ [BitVec.ofInt 8 n] = chunk := by
  obtain ⟨u8, rfl⟩ := List.length_eq_one_iff.mp single
  have bound := u8.isLt
  have number : leNumber [u8] = u8.toNat := by simp [leNumber]
  refine ⟨_, strictStrtol_hexFixed (by decide) (by omega) (by omega), ?_⟩
  rw [number, BitVec.ofInt_natCast, BitVec.ofNat_toNat, BitVec.setWidth_eq]

theorem x32_read (le : Bool) (chunk : List Byte) (word : chunk.length = 4) :
    ∃ n, strictStrtol (48#8 :: 120#8 :: hexFixed 8 (toCpu le chunk)) 16 = some n ∧
      fromCpu le 4 (BitVec.ofInt 32 n).toNat = chunk := by
  have bound := toCpu_lt le chunk
  rw [word] at bound
  refine ⟨_, strictStrtol_hexFixed (by decide) (by omega) (by omega), ?_⟩
  have encoded := fromCpu_toCpu le chunk
  rw [word] at encoded
  rw [BitVec.ofInt_natCast, BitVec.toNat_ofNat, Nat.mod_eq_of_lt (by omega), encoded]

theorem availableType_load (laws : api.Lawful children elements) {print : StructurePrint} {field addr : List Byte}
    (sized : print.Sized field.length) (sizes : addr.length = field.length) {json item : J} {name : CString}
    (found : api.getObjectItem json name = some item) (holds : (print.saved forcedEndian field).Held api elements item) :
    ∃ type, availableType api forcedEndian print = some type ∧
      type.loadJson json name addr = some (print.loaded field addr) := by
  have text (s : CString) (value : api.getStringValue item = some s) :
      jsonGetStringValueInObject api.toCJson json name = some s := by
    rw [jsonGetStringValueInObject, found]
    exact value
  cases print with
  | string =>
    refine ⟨_, rfl, ?_⟩
    simp only [loadJsonString, text _ holds, Option.bind_eq_bind, Option.bind_some]
    rfl
  | unsigned =>
    obtain ⟨n, parsed, value⟩ := snprintfUnsigned_read sized (structureEndianPreferLe forcedEndian true)
    exact ⟨_, rfl, loadSetJsonValue_loaded forcedEndian sized sizes (text _ holds) parsed value⟩
  | beUnsigned =>
    obtain ⟨n, parsed, value⟩ := snprintfUnsigned_read sized (structureEndianPreferLe forcedEndian false)
    exact ⟨_, rfl, loadSetJsonValue_loaded forcedEndian sized sizes (text _ holds) parsed value⟩
  | xunsigned =>
    exact ⟨_, rfl, loadSetJsonValue_loaded forcedEndian sized sizes (text _ holds) (snprintfXunsigned_read sized _)
      (Nat.mod_eq_of_lt (toCpu_lt _ field))⟩
  | beXunsigned =>
    exact ⟨_, rfl, loadSetJsonValue_loaded forcedEndian sized sizes (text _ holds) (snprintfXunsigned_read sized _)
      (Nat.mod_eq_of_lt (toCpu_lt _ field))⟩
  | x8Array =>
    obtain ⟨isArray, strings⟩ := holds
    refine ⟨_, rfl, ?_⟩
    have items := loadJsonItems_texts x8_read (by decide) sizes _ 0 _ (Nat.zero_add _) strings
    rw [Nat.zero_mul, List.take_zero, List.drop_zero, List.nil_append, Nat.div_one, Nat.mul_one, List.take_length,
      ← sizes, List.drop_length, List.append_nil] at items
    simp only [loadJsonX8Array, found, Option.bind_eq_bind, Option.bind_some, isArray, if_true,
      arrayForEach_eq laws.toLawful]
    exact items
  | x32Array =>
    obtain ⟨isArray, strings⟩ := holds
    refine ⟨_, rfl, ?_⟩
    have items := loadJsonItems_texts (x32_read _) (by decide) sizes _ 0 _ (Nat.zero_add _) strings
    rw [Nat.zero_mul, List.take_zero, List.drop_zero, List.nil_append] at items
    simp only [loadJsonN32Array, found, Option.bind_eq_bind, Option.bind_some, isArray, if_true,
      arrayForEach_eq laws.toLawful]
    exact items
  | other => exact sized.elim

theorem snprintfString_length (s : CString) (addr : List Byte) : (snprintfString s addr).length = addr.length := by
  unfold snprintfString
  split
  · rfl
  · apply setField_length
    simp only [List.length_append, List.length_take, List.length_singleton]
    omega

theorem StructurePrint.loaded_length (print : StructurePrint) {field addr : List Byte} (sizes : addr.length = field.length) :
    (print.loaded field addr).length = field.length := by
  have whole := Nat.div_mul_le_self field.length 4
  cases print with
  | string => rw [loaded, snprintfString_length, sizes]
  | x32Array =>
    rw [loaded, List.length_append, List.length_take, List.length_drop]
    omega
  | _ => rfl

end Types

section Strings

theorem cString_append (buffer : List Byte) : cString buffer ++ buffer.dropWhile (fun c => decide (c ≠ 0#8)) = buffer :=
  List.takeWhile_append_dropWhile

theorem cString_ne_zero {buffer : List Byte} {c : Byte} (member : c ∈ cString buffer) : c ≠ 0#8 := by
  simpa using List.mem_takeWhile_imp member

theorem cString_ended {buffer : List Byte} (ended : (cString buffer).length < buffer.length) :
    cString buffer ++ [0#8] ++ buffer.drop ((cString buffer).length + 1) = buffer := by
  have split := cString_append buffer
  cases rest : buffer.dropWhile (fun c => decide (c ≠ 0#8)) with
  | nil =>
    rw [rest, List.append_nil] at split
    rw [split] at ended
    omega
  | cons head tail =>
    have zero : head = 0#8 := by
      have stops := List.head_dropWhile_not (fun c : Byte => decide (c ≠ 0#8)) (l := buffer) (by rw [rest]; exact List.cons_ne_nil _ _)
      simpa only [rest, List.head_cons, decide_eq_false_iff_not, not_not] using stops
    rw [rest, zero] at split
    have behind : buffer.drop ((cString buffer).length + 1) = tail := by
      have dropped := congrArg (List.drop ((cString buffer).length + 1)) split
      rw [← List.drop_drop, List.drop_left] at dropped
      exact dropped.symm
    rw [behind, List.append_assoc]
    exact split

theorem snprintfString_eq_iff {buffer addr : List Byte} (sizes : addr.length = buffer.length) :
    snprintfString (cString buffer) addr = buffer ↔
      buffer = [] ∨ (cString buffer).length < buffer.length ∧
        addr.drop ((cString buffer).length + 1) = buffer.drop ((cString buffer).length + 1) := by
  by_cases empty : buffer = []
  · subst empty
    obtain rfl := List.eq_nil_of_length_eq_zero sizes
    simp [snprintfString]
  have positive := List.length_pos_iff.mpr empty
  have bound := cString_length_le buffer
  have short : snprintfString (cString buffer) addr =
      (cString buffer).take (buffer.length - 1) ++ [0#8] ++
        addr.drop ((cString buffer).take (buffer.length - 1) ++ [0#8]).length := by
    rw [snprintfString, if_neg (by omega), setField, sizes, List.take_zero, List.nil_append, Nat.zero_add]
  simp only [empty, false_or]
  rw [short]
  constructor
  · intro same
    have ended : (cString buffer).length < buffer.length := by
      by_contra full
      have whole : cString buffer = buffer := by
        have split := cString_append buffer
        have none : (buffer.dropWhile fun c => decide (c ≠ 0#8)).length = 0 := by
          have lengths := congrArg List.length split
          rw [List.length_append] at lengths
          omega
        rwa [List.eq_nil_of_length_eq_zero none, List.append_nil] at split
      have zero : (0#8 : Byte) ∈ cString buffer := by
        rw [whole, ← same]
        simp
      exact cString_ne_zero zero rfl
    refine ⟨ended, ?_⟩
    rw [List.take_of_length_le (by omega)] at same
    conv_rhs at same => rw [← cString_ended ended]
    have tails := List.append_cancel_left same
    rwa [List.length_append, List.length_singleton] at tails
  · rintro ⟨ended, behind⟩
    rw [List.take_of_length_le (by omega), List.length_append, List.length_singleton, behind]
    exact cString_ended ended

end Strings

end ImgEditor
