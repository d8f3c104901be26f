import ImgEditor.Core.StructureTable

namespace ImgEditor

open Storage CText

inductive StructureEndian where
  | forceNone
  | forceLe
  | forceBe
deriving DecidableEq, Repr

def structureEndianPreferLe (forcedEndian : StructureEndian) (le : Bool) : Bool :=
  match forcedEndian with
  | .forceBe => false
  | .forceLe => true
  | .forceNone => le

/-- The number that `le*_to_cpu` or `be*_to_cpu` finds in memory. -/
def toCpu (le : Bool) (un : List Byte) : Nat := leNumber (if le then un else un.reverse)

/-- What a store of `cpu_to_le*` or `cpu_to_be*` leaves in memory. -/
def fromCpu (le : Bool) (sz n : Nat) : List Byte := if le then leBytes sz n else (leBytes sz n).reverse

def snprintfUnsigned (le : Bool) (un : List Byte) : CString :=
  match un.length with
  | 1 => decimal (leNumber un)
  | 2 => decimal (toCpu le un)
  -- printed with %d, so that a large number has a sign
  | 4 => snprintfUnsigned32 (BitVec.ofNat 32 (toCpu le un))
  | 8 => decimal (toCpu le un)
  | _ => []

def snprintfXunsigned (le : Bool) (un : List Byte) : CString :=
  match un.length with
  | 1 => 48#8 :: 120#8 :: hexFixed 2 (leNumber un)
  | 2 => 48#8 :: 120#8 :: hexFixed 4 (toCpu le un)
  | 4 => 48#8 :: 120#8 :: hexFixed 8 (toCpu le un)
  | 8 => 48#8 :: 120#8 :: hexFixed 16 (toCpu le un)
  | _ => []

/-- `_structure_item_set_unsigned` on a field of `sz` bytes. -/
def structureItemSetUnsigned (sz : Nat) (le : Bool) (un : Nat) : Option (List Byte) :=
  match sz with
  | 1 => some (leBytes 1 un)
  | 2 => some (fromCpu le 2 un)
  | 4 => some (fromCpu le 4 un)
  | 8 => some (fromCpu le 8 un)
  | _ => none

def strictStrtol (s : CString) (base : Nat) : Option Int :=
  let (n, endp) := strtol base s
  if endp = [] then some n else none

/-- The functions of cJSON with `cJSON_CreateString`. -/
structure CJsonItems (J : Type) extends CJson J where
  createString : CString → J

structure CJsonItems.Lawful {J : Type} (api : CJsonItems J) (children : J → List (CString × J))
    (elements : J → List J) : Prop extends CJson.Lawful api.toCJson children elements where
  string_value : ∀ s, api.getStringValue (api.createString s) = some s

/-- A save function gets the bytes of the field, a load function returns them as it leaves them. -/
abbrev SaveJson (J : Type) := J → CString → List Byte → Option J

abbrev LoadJson (J : Type) := J → CString → List Byte → Option (List Byte)

section Functions

variable {J : Type} (api : CJsonItems J) (forcedEndian : StructureEndian)

def saveJsonUnsigned (le : Bool) : SaveJson J := fun json name addr =>
  some (api.addStringToObject json name (snprintfUnsigned (structureEndianPreferLe forcedEndian le) addr))

def saveJsonXunsigned (le : Bool) : SaveJson J := fun json name addr =>
  some (api.addStringToObject json name (snprintfXunsigned (structureEndianPreferLe forcedEndian le) addr))

def loadSetJsonValue (le : Bool) (base : Nat) : LoadJson J := fun json name addr => do
  let s ← jsonGetStringValueInObject api.toCJson json name
  let un ← strictStrtoull s base
  structureItemSetUnsigned addr.length (structureEndianPreferLe forcedEndian le) un

def saveJsonItems (width : Nat) (text : List Byte → CString) (array : J) (addr : List Byte) : J :=
  (List.range (addr.length / width)).foldl
    (fun array i => api.addItemToArray array (api.createString (text (field addr (i * width) width)))) array

/-- The loop over the strings of an array. It stops at the end of the field, a string that is not a number as
a whole is an error. -/
def loadJsonItems (width : Nat) (store : Int → List Byte) : List J → Nat → List Byte → Option (List Byte)
  | [], _, addr => some addr
  | item :: rest, i, addr =>
    if i < addr.length / width then do
      let s ← api.getStringValue item
      let n ← strictStrtol s 16
      loadJsonItems width store rest (i + 1) (setField addr (i * width) (store n))
    else some addr

def saveJsonX8Array : SaveJson J := fun json name addr =>
  some (api.addItemToObject json name
    (saveJsonItems api 1 (fun u8 => 48#8 :: 120#8 :: hexFixed 2 (leNumber u8)) api.createArray addr))

def loadJsonX8Array : LoadJson J := fun json name addr => do
  let array ← api.getObjectItem json name
  if api.isArray array then loadJsonItems api 1 (fun n => [BitVec.ofInt 8 n]) (arrayForEach api.toCJson array) 0 addr
  else none

def saveJsonN32Array (le : Bool) : SaveJson J := fun json name addr =>
  some (api.addItemToObject json name
    (saveJsonItems api 4
      (fun n32 => 48#8 :: 120#8 :: hexFixed 8 (toCpu (structureEndianPreferLe forcedEndian le) n32)) api.createArray addr))

def loadJsonN32Array (le : Bool) : LoadJson J := fun json name addr => do
  let array ← api.getObjectItem json name
  if api.isArray array then
    loadJsonItems api 4 (fun n => fromCpu (structureEndianPreferLe forcedEndian le) 4 (BitVec.ofInt 32 n).toNat)
      (arrayForEach api.toCJson array) 0 addr
  else none

def saveJsonString : SaveJson J := fun json name addr =>
  some (jsonCreateOrUpdateStringValue api.toCJson json name (cString addr))

/-- `snprintf` of a string into the field: at most all but one of its bytes, and the zero behind them. -/
def snprintfString (s : CString) (addr : List Byte) : List Byte :=
  if addr.length = 0 then addr else setField addr 0 (s.take (addr.length - 1) ++ [0#8])

def loadJsonString : LoadJson J := fun json name addr => do
  let s ← jsonGetStringValueInObject api.toCJson json name
  some (snprintfString s addr)

end Functions

inductive StructurePrint where
  | string
  | unsigned
  | beUnsigned
  | xunsigned
  | beXunsigned
  | x8Array
  | x32Array
  | other
deriving DecidableEq, Repr

structure StructureItemType (J : Type) where
  saveJson : SaveJson J
  loadJson : LoadJson J

structure StructureEntry (J : Type) where
  name : CString
  offset : Nat
  size : Nat
  print : Option StructurePrint
  saveJson : Option (SaveJson J)
  loadJson : Option (LoadJson J)
  notSave : Bool

section Table

variable {J : Type} (api : CJsonItems J) (forcedEndian : StructureEndian)

def availableType : StructurePrint → Option (StructureItemType J)
  | .string => some ⟨saveJsonString api, loadJsonString api⟩
  | .unsigned => some ⟨saveJsonUnsigned api forcedEndian true, loadSetJsonValue api forcedEndian true 10⟩
  | .beUnsigned => some ⟨saveJsonUnsigned api forcedEndian false, loadSetJsonValue api forcedEndian false 10⟩
  | .xunsigned => some ⟨saveJsonXunsigned api forcedEndian true, loadSetJsonValue api forcedEndian true 16⟩
  | .beXunsigned => some ⟨saveJsonXunsigned api forcedEndian false, loadSetJsonValue api forcedEndian false 16⟩
  | .x8Array => some ⟨saveJsonX8Array api, loadJsonX8Array api⟩
  | .x32Array => some ⟨saveJsonN32Array api forcedEndian true, loadJsonN32Array api forcedEndian true⟩
  | .other => none

def getStructureItemType (print : Option StructurePrint) : Option (StructureItemType J) :=
  print.bind (availableType api forcedEndian)

namespace StructureEntry

/-- One turn of the loop in `structure_save_json`. -/
def save (item : StructureEntry J) (json : J) (base : List Byte) : Option J :=
  if item.notSave then some json
  else do
    let save ← item.saveJson.or ((getStructureItemType api forcedEndian item.print).map StructureItemType.saveJson)
    save json item.name (field base item.offset item.size)

/-- One turn of the loop in `structure_load_json`. -/
def load (item : StructureEntry J) (json : J) (base : List Byte) : Option (List Byte) :=
  if item.notSave then some base
  else do
    let load ← item.loadJson.or ((getStructureItemType api forcedEndian item.print).map StructureItemType.loadJson)
    let addr ← load json item.name (field base item.offset item.size)
    some (setField base item.offset addr)

end StructureEntry

def saveStructureJson (json : J) (base : List Byte) (items : List (StructureEntry J)) : Option J :=
  items.foldlM (fun json item => item.save api forcedEndian json base) json

def loadStructureJson (json : J) (base : List Byte) (items : List (StructureEntry J)) : Option (List Byte) :=
  items.foldlM (fun base item => item.load api forcedEndian json base) base

end Table

def cjsonTreeItems : CJsonItems CJsonTree where
  toCJson := cjsonTree
  createString s := .mk (some s) false []

theorem cjsonTreeItems_lawful :
    cjsonTreeItems.Lawful CJsonTree.children fun tree => tree.children.map Prod.snd where
  toLawful := cjsonTree_lawful
  string_value := fun _ => rfl

end ImgEditor
