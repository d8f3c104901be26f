import Mathlib.Data.List.Forall2
import ImgEditor.Core.CText

namespace ImgEditor

open Storage CText

def cstr (s : String) : CString := s.toList.map fun c => BitVec.ofNat 8 c.toNat

def lowerCase (c : Byte) : Byte := if 65 ≤ c.toNat ∧ c.toNat ≤ 90 then c + 32 else c

/-- `cJSON_GetObjectItem` compares names without regard to case. -/
def sameName (a b : CString) : Bool := a.map lowerCase = b.map lowerCase

/-- The functions of cJSON that are used here. A function that changes an item in C returns it
changed; `setValuestring` changes the string item of that name. `getStringValue` is none unless
`cJSON_IsString` holds. -/
structure CJson (J : Type) where
  createObject : J
  createArray : J
  addStringToObject : J → CString → CString → J
  addItemToObject : J → CString → J → J
  addItemToArray : J → J → J
  setValuestring : J → CString → CString → J
  getObjectItem : J → CString → Option J
  getStringValue : J → Option CString
  isArray : J → Bool
  getArraySize : J → Nat
  getArrayItem : J → Nat → Option J

/-- The documented behaviour of these functions, in terms of the named children of an object and the
elements of an array. -/
structure CJson.Lawful {J : Type} (api : CJson J) (children : J → List (CString × J))
    (elements : J → List J) : Prop where
  children_create : children api.createObject = []
  children_string : ∀ o name value, ∃ item, children (api.addStringToObject o name value) =
    children o ++ [(name, item)] ∧ api.getStringValue item = some value
  children_item : ∀ o name item, children (api.addItemToObject o name item) = children o ++ [(name, item)]
  get_item : ∀ o name, api.getObjectItem o name =
    ((children o).find? fun child => sameName child.1 name).map Prod.snd
  elements_create : elements api.createArray = []
  elements_add : ∀ a item, elements (api.addItemToArray a item) = elements a ++ [item]
  array_create : api.isArray api.createArray = true
  array_add : ∀ a item, api.isArray (api.addItemToArray a item) = api.isArray a
  array_size : ∀ a, api.getArraySize a = (elements a).length
  array_item : ∀ a i, api.getArrayItem a i = (elements a)[i]?

/-- The functions that deal with arrays of strings. -/
structure CJsonStrings (J : Type) extends CJson J where
  createStringArray : List CString → J

structure CJsonStrings.Lawful {J : Type} (api : CJsonStrings J) (children : J → List (CString × J))
    (elements : J → List J) : Prop extends CJson.Lawful api.toCJson children elements where
  strings_array : ∀ strings, api.isArray (api.createStringArray strings) = true
  strings_elements : ∀ strings, (elements (api.createStringArray strings)).map api.getStringValue = strings.map some

section Json

variable {J : Type} (api : CJson J)

def arrayForEach (array : J) : List J := (List.range (api.getArraySize array)).filterMap (api.getArrayItem array)

def jsonGetStringValueInObject (json : J) (id : CString) : Option CString :=
  (api.getObjectItem json id).bind api.getStringValue

/-- `json_create_or_update_string_value`; an item that is no string is left alone. -/
def jsonCreateOrUpdateStringValue (root : J) (name val : CString) : J :=
  match api.getObjectItem root name with
  | none => api.addStringToObject root name val
  | some json =>
    match api.getStringValue json with
    | none => root
    | some old => if old = val then root else api.setValuestring root name val

def strictStrtoull (s : CString) (base : Nat) : Option Nat :=
  let (n, endp) := strtoull base s
  if endp = [] then some n else none

/-- A saved item of a `structure_item` table, with its save and load functions. -/
structure StructureItem (σ : Type) where
  name : CString
  createOrUpdate : Bool
  saveJson : σ → CString
  loadJson : CString → σ → Option σ

variable {σ : Type}

def structureSaveJson (json : J) (base : σ) (items : List (StructureItem σ)) : J :=
  items.foldl (fun json item =>
    if item.createOrUpdate then jsonCreateOrUpdateStringValue api json item.name (item.saveJson base)
    else api.addStringToObject json item.name (item.saveJson base)) json

def structureLoadJson (json : J) (base : σ) (items : List (StructureItem σ)) : Option σ :=
  items.foldlM (fun base item => do
    let s ← jsonGetStringValueInObject api json item.name
    item.loadJson s base) base

end Json

/-- `snprintf_unsigned` prints a 32 bit number with `%d`. -/
def snprintfUnsigned32 (n : BitVec 32) : CString :=
  if n.toNat < 2 ^ 31 then decimal n.toNat else 45 :: decimal (2 ^ 32 - n.toNat)

def snprintfXunsigned64 (n : BitVec 64) : CString := 48 :: 120 :: hexFixed 16 n.toNat

section Items

variable {σ : Type} (name : String)

def itemUnsigned64 (get : σ → BitVec 64) (set : BitVec 64 → σ → σ) : StructureItem σ where
  name := cstr name
  createOrUpdate := false
  saveJson base := decimal (get base).toNat
  loadJson s base := (strictStrtoull s 10).map fun n => set (BitVec.ofNat 64 n) base

def itemUnsigned32 (get : σ → BitVec 32) (set : BitVec 32 → σ → σ) : StructureItem σ where
  name := cstr name
  createOrUpdate := false
  saveJson base := snprintfUnsigned32 (get base)
  loadJson s base := (strictStrtoull s 10).map fun n => set (BitVec.ofNat 32 n) base

def itemXunsigned64 (get : σ → BitVec 64) (set : BitVec 64 → σ → σ) : StructureItem σ where
  name := cstr name
  createOrUpdate := false
  saveJson base := snprintfXunsigned64 (get base)
  loadJson s base := (strictStrtoull s 16).map fun n => set (BitVec.ofNat 64 n) base

end Items

theorem strictStrtoull_decimal_lt {n : Nat} (small : n < 2 ^ 64) : strictStrtoull (decimal n) 10 = some n := by
  rw [strictStrtoull, strtoull_decimal small]
  rfl

theorem strictStrtoull_decimal (n : BitVec 64) : strictStrtoull (decimal n.toNat) 10 = some n.toNat :=
  strictStrtoull_decimal_lt n.isLt

theorem strictStrtoull_unsigned32 (n : BitVec 32) :
    (strictStrtoull (snprintfUnsigned32 n) 10).map (BitVec.ofNat 32) = some n := by
  have bound := n.isLt
  unfold snprintfUnsigned32
  split
  · rw [strictStrtoull, strtoull_decimal (by omega)]
    simp
  · rw [strictStrtoull, strtoull_minus_decimal (by omega)]
    simp only [if_true, Option.map_some, Option.some.injEq]
    apply BitVec.eq_of_toNat_eq
    rw [BitVec.toNat_ofNat]
    omega

theorem strictStrtoull_xunsigned64 (n : BitVec 64) :
    strictStrtoull (snprintfXunsigned64 n) 16 = some n.toNat := by
  have bound : n.toNat < 16 ^ 16 := n.isLt
  rw [strictStrtoull, snprintfXunsigned64, strtoull_hexFixed (by decide) bound n.isLt]
  rfl

section Lawful

variable {J : Type} {api : CJson J} {children : J → List (CString × J)} {elements : J → List J}

/-- The object has exactly these string items, in this order. -/
def StringItems (api : CJson J) (children : J → List (CString × J)) (o : J)
    (pairs : List (CString × CString)) : Prop :=
  List.Forall₂ (fun child pair => child.1 = pair.1 ∧ api.getStringValue child.2 = some pair.2) (children o) pairs

theorem StringItems.create (laws : api.Lawful children elements) :
    StringItems api children api.createObject [] := by
  rw [StringItems, laws.children_create]
  exact .nil

theorem StringItems.find {o : J} {pairs : List (CString × CString)} (items : StringItems api children o pairs)
    (name : CString) :
    (((children o).find? fun child => sameName child.1 name).map Prod.snd).bind api.getStringValue =
      (pairs.find? fun pair => sameName pair.1 name).map Prod.snd := by
  unfold StringItems at items
  generalize children o = named at items ⊢
  induction items with
  | nil => rfl
  | @cons child pair _ _ head _ ih =>
    obtain ⟨key, value⟩ := head
    cases found : sameName pair.1 name with
    | true =>
      simp only [List.find?_cons, key, found]
      exact value
    | false =>
      simp only [List.find?_cons, key, found]
      exact ih

theorem StringItems.get {o : J} {pairs : List (CString × CString)} (laws : api.Lawful children elements)
    (items : StringItems api children o pairs) (name : CString) :
    jsonGetStringValueInObject api o name = (pairs.find? fun pair => sameName pair.1 name).map Prod.snd := by
  rw [jsonGetStringValueInObject, laws.get_item, items.find]

theorem StringItems.absent {o : J} {pairs : List (CString × CString)} (laws : api.Lawful children elements)
    (items : StringItems api children o pairs) {name : CString}
    (fresh : ∀ pair ∈ pairs, sameName pair.1 name = false) : api.getObjectItem o name = none := by
  rw [laws.get_item, Option.map_eq_none_iff, List.find?_eq_none]
  intro child member
  unfold StringItems at items
  generalize children o = named at items member
  induction items with
  | nil => exact absurd member List.not_mem_nil
  | cons head _ ih =>
    rcases List.mem_cons.mp member with rfl | member
    · rw [head.1, fresh _ List.mem_cons_self]
      exact Bool.false_ne_true
    · exact ih (fun pair inside => fresh pair (List.mem_cons_of_mem _ inside)) member

theorem StringItems.add {o : J} {pairs : List (CString × CString)} (laws : api.Lawful children elements)
    (items : StringItems api children o pairs) (name value : CString) :
    StringItems api children (api.addStringToObject o name value) (pairs ++ [(name, value)]) := by
  obtain ⟨item, shape, string⟩ := laws.children_string o name value
  rw [StringItems, shape]
  exact List.rel_append items (.cons ⟨rfl, string⟩ .nil)

theorem StringItems.addOrUpdate {o : J} {pairs : List (CString × CString)} (laws : api.Lawful children elements)
    (items : StringItems api children o pairs) {name : CString} (value : CString)
    (fresh : ∀ pair ∈ pairs, sameName pair.1 name = false) :
    StringItems api children (jsonCreateOrUpdateStringValue api o name value) (pairs ++ [(name, value)]) := by
  rw [jsonCreateOrUpdateStringValue, items.absent laws fresh]
  exact items.add laws name value

def NamesApart {σ : Type} (items : List (StructureItem σ)) : Prop :=
  items.Pairwise fun a b => sameName a.name b.name = false

instance {σ : Type} (items : List (StructureItem σ)) : Decidable (NamesApart items) :=
  inferInstanceAs (Decidable (List.Pairwise _ _))

def savedPairs {σ : Type} (items : List (StructureItem σ)) (base : σ) : List (CString × CString) :=
  items.map fun item => (item.name, item.saveJson base)

theorem StringItems.save {σ : Type} {items : List (StructureItem σ)} {o : J} {pairs : List (CString × CString)}
    (laws : api.Lawful children elements) (present : StringItems api children o pairs) (base : σ)
    (apart : NamesApart items)
    (fresh : ∀ pair ∈ pairs, ∀ item ∈ items, sameName pair.1 item.name = false) :
    StringItems api children (structureSaveJson api o base items) (pairs ++ savedPairs items base) := by
  induction items generalizing o pairs with
  | nil => simpa [structureSaveJson, savedPairs] using present
  | cons item rest ih =>
    obtain ⟨headApart, restApart⟩ := List.pairwise_cons.mp apart
    have freshItem : ∀ pair ∈ pairs, sameName pair.1 item.name = false :=
      fun pair inside => fresh pair inside item List.mem_cons_self
    have added : StringItems api children
        (if item.createOrUpdate then jsonCreateOrUpdateStringValue api o item.name (item.saveJson base)
          else api.addStringToObject o item.name (item.saveJson base))
        (pairs ++ [(item.name, item.saveJson base)]) := by
      split
      · exact present.addOrUpdate laws _ freshItem
      · exact present.add laws _ _
    have tail := ih added restApart (by
      intro pair inside other member
      rcases List.mem_append.mp inside with inside | inside
      · exact fresh pair inside other (List.mem_cons_of_mem _ member)
      · rw [List.mem_singleton.mp inside]
        exact headApart other member)
    simpa [structureSaveJson, savedPairs] using tail

theorem sameName_self (name : CString) : sameName name name = true := by simp [sameName]

theorem savedPairs_find {σ : Type} {items : List (StructureItem σ)} (base : σ) (apart : NamesApart items)
    {item : StructureItem σ} (member : item ∈ items) :
    (savedPairs items base).find? (fun pair => sameName pair.1 item.name) =
      some (item.name, item.saveJson base) := by
  induction items with
  | nil => exact absurd member List.not_mem_nil
  | cons head rest ih =>
    obtain ⟨headApart, restApart⟩ := List.pairwise_cons.mp apart
    rcases List.mem_cons.mp member with rfl | inside
    · simp [savedPairs, sameName_self]
    · have other := headApart item inside
      simp only [savedPairs, List.map_cons, List.find?_cons, other] at ih ⊢
      exact ih restApart inside

theorem structureLoadJson_saved {σ : Type} {items : List (StructureItem σ)} {json : J} {base : σ}
    (found : ∀ item ∈ items, jsonGetStringValueInObject api json item.name = some (item.saveJson base)) (init : σ) :
    structureLoadJson api json init items =
      items.foldlM (fun loaded item => item.loadJson (item.saveJson base) loaded) init := by
  induction items generalizing init with
  | nil => rfl
  | cons item rest ih =>
    have tail := ih fun other member => found other (List.mem_cons_of_mem _ member)
    simp only [structureLoadJson] at tail ⊢
    simp only [List.foldlM_cons, found item List.mem_cons_self, tail]
    rfl

theorem StringItems.get_addItem {o : J} {pairs : List (CString × CString)} (laws : api.Lawful children elements)
    (items : StringItems api children o pairs) (name : CString) (item : J) {key value : CString}
    (found : (pairs.find? fun pair => sameName pair.1 key) = some (key, value)) :
    jsonGetStringValueInObject api (api.addItemToObject o name item) key = some value := by
  have lookup := items.find key
  rw [found, Option.map_some] at lookup
  rw [jsonGetStringValueInObject, laws.get_item, laws.children_item, List.find?_append]
  cases child : (children o).find? fun child => sameName child.1 key with
  | none => simp [child] at lookup
  | some child' =>
    rw [child] at lookup
    exact lookup

theorem StringItems.getItem_addItem {o : J} {pairs : List (CString × CString)} (laws : api.Lawful children elements)
    (items : StringItems api children o pairs) {name : CString} (item : J)
    (fresh : ∀ pair ∈ pairs, sameName pair.1 name = false) :
    api.getObjectItem (api.addItemToObject o name item) name = some item := by
  have absent := items.absent laws fresh
  rw [laws.get_item, Option.map_eq_none_iff] at absent
  rw [laws.get_item, laws.children_item, List.find?_append, absent]
  simp [sameName_self]

end Lawful

theorem range_filterMap_getElem? {α : Type} (list : List α) :
    (List.range list.length).filterMap (fun i => list[i]?) = list := by
  induction list with
  | nil => rfl
  | cons head tail ih =>
    rw [List.length_cons, List.range_succ_eq_map, List.filterMap_cons, List.filterMap_map]
    exact congrArg (head :: ·) ih

theorem arrayForEach_eq {J : Type} {api : CJson J} {children : J → List (CString × J)} {elements : J → List J}
    (laws : api.Lawful children elements) (array : J) : arrayForEach api array = elements array := by
  have item : api.getArrayItem array = fun i => (elements array)[i]? := funext (laws.array_item array)
  rw [arrayForEach, laws.array_size, item, range_filterMap_getElem?]

inductive CJsonTree where
  | mk (valuestring : Option CString) (array : Bool) (children : List (CString × CJsonTree))

def CJsonTree.children : CJsonTree → List (CString × CJsonTree)
  | .mk _ _ children => children

def CJsonTree.addChild : CJsonTree → CString × CJsonTree → CJsonTree
  | .mk valuestring array children, child => .mk valuestring array (children ++ [child])

def cjsonTree : CJson CJsonTree where
  createObject := .mk none false []
  createArray := .mk none true []
  addStringToObject o name value := o.addChild (name, .mk (some value) false [])
  addItemToObject o name item := o.addChild (name, item)
  addItemToArray a item := a.addChild ([], item)
  setValuestring
    | .mk valuestring array children, name, value =>
      .mk valuestring array (children.map fun child =>
        if sameName child.1 name then (child.1, .mk (some value) false []) else child)
  getObjectItem o name := (o.children.find? fun child => sameName child.1 name).map Prod.snd
  getStringValue | .mk valuestring _ _ => valuestring
  isArray | .mk _ array _ => array
  getArraySize a := a.children.length
  getArrayItem a i := a.children[i]?.map Prod.snd

theorem cjsonTree_lawful : cjsonTree.Lawful CJsonTree.children fun tree => tree.children.map Prod.snd where
  children_create := rfl
  children_string := fun ⟨_, _, _⟩ _ _ => ⟨_, rfl, rfl⟩
  children_item := fun ⟨_, _, _⟩ _ _ => rfl
  get_item := fun _ _ => rfl
  elements_create := rfl
  elements_add := fun ⟨_, _, _⟩ _ => by simp [cjsonTree, CJsonTree.addChild, CJsonTree.children]
  array_create := rfl
  array_add := fun ⟨_, _, _⟩ _ => rfl
  array_size := fun _ => by simp [cjsonTree]
  array_item := fun _ _ => by simp [cjsonTree]

def cjsonTreeStrings : CJsonStrings CJsonTree where
  toCJson := cjsonTree
  createStringArray strings := .mk none true (strings.map fun s => ([], .mk (some s) false []))

theorem cjsonTreeStrings_lawful :
    cjsonTreeStrings.Lawful CJsonTree.children fun tree => tree.children.map Prod.snd where
  toLawful := cjsonTree_lawful
  strings_array := fun _ => rfl
  strings_elements := fun strings => by
    simp only [cjsonTreeStrings, CJsonTree.children, List.map_map]
    rfl

end ImgEditor
