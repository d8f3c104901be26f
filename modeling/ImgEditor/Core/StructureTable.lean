import ImgEditor.Core.Structure
import ImgEditor.Storage.Record
import Mathlib.Tactic.NormNum

namespace ImgEditor

open Storage CText

/-- The print functions of a `structure_item`, which select its save and load functions. -/
inductive ItemPrint where
  | unsigned
  | xunsigned
  | string
deriving DecidableEq, Repr

/-- An entry of a `structure_item` table over a packed little-endian record. -/
structure TableItem where
  name : String
  offset : Nat
  size : Nat
  print : ItemPrint
  notSave : Bool
deriving DecidableEq, Repr

def cString (buffer : List Byte) : CString := buffer.takeWhile fun c => decide (c ≠ 0#8)

namespace TableItem

def saveJson (item : TableItem) (base : List Byte) : CString :=
  match item.print with
  | .unsigned =>
    -- only 32 bit numbers are printed as int
    if item.size = 4 then snprintfUnsigned32 (BitVec.ofNat 32 (leField base item.offset 4))
    else decimal (leField base item.offset item.size)
  | .xunsigned => 48#8 :: 120#8 :: hexFixed (2 * item.size) (leField base item.offset item.size)
  | .string => cString (field base item.offset item.size)

def loadJson (item : TableItem) (s : CString) (base : List Byte) : Option (List Byte) :=
  match item.print with
  | .unsigned => (strictStrtoull s 10).map fun n => setField base item.offset (leBytes item.size n)
  | .xunsigned => (strictStrtoull s 16).map fun n => setField base item.offset (leBytes item.size n)
  | .string => some (setField base item.offset (s.take (item.size - 1) ++ [0#8]))

def toItem (item : TableItem) : StructureItem (List Byte) where
  name := cstr item.name
  createOrUpdate := decide (item.print = .string)
  saveJson := item.saveJson
  loadJson := item.loadJson

end TableItem

def savedItems (items : List TableItem) : List (StructureItem (List Byte)) :=
  (items.filter fun item => !item.notSave).map TableItem.toItem

def TableItem.value (item : TableItem) (base : List Byte) : List Byte :=
  match item.print with
  | .string => cString (field base item.offset item.size)
  | _ => field base item.offset item.size

def TableItem.written (item : TableItem) (base : List Byte) : FieldWrite :=
  (item.offset,
    match item.print with
    | .string => (cString (field base item.offset item.size)).take (item.size - 1) ++ [0#8]
    | _ => field base item.offset item.size)

/-- The field lies in the record and has a size that its functions know. -/
structure TableItem.Fits (item : TableItem) (length : Nat) : Prop where
  inside : item.offset + item.size ≤ length
  size : item.print = .string ∧ 0 < item.size ∨ item.size = 4 ∨ item.size = 8

theorem TableItem.Fits.positive {item : TableItem} {length : Nat} (fits : item.Fits length) : 0 < item.size := by
  rcases fits.size with text | four | eight
  · exact text.2
  · omega
  · omega

instance (item : TableItem) (length : Nat) : Decidable (item.Fits length) :=
  decidable_of_iff (item.offset + item.size ≤ length ∧
      (item.print = .string ∧ 0 < item.size ∨ item.size = 4 ∨ item.size = 8))
    ⟨fun fits => ⟨fits.1, fits.2⟩, fun fits => ⟨fits.inside, fits.size⟩⟩

theorem cString_plain {s : List Byte} (plain : 0#8 ∉ s) : cString s = s := by
  rw [cString, List.takeWhile_eq_self_iff]
  intro c member
  exact decide_eq_true fun zero => plain (zero ▸ member)

theorem cString_length_le (buffer : List Byte) : (cString buffer).length ≤ buffer.length := by
  rw [cString]
  exact (List.takeWhile_sublist _).length_le

theorem leBytes_field {base : List Byte} {offset size : Nat} (inside : offset + size ≤ base.length) :
    leBytes size (leField base offset size) = field base offset size := by
  have encoded := leBytes_leNumber (field base offset size)
  rwa [field_length inside] at encoded

theorem strictStrtoull_hexFixed {width n : Nat} (positive : 0 < width) (fits : n < 16 ^ width) (small : n < 2^64) :
    strictStrtoull (48#8 :: 120#8 :: hexFixed width n) 16 = some n := by
  have number := strtoull_hexFixed positive fits small
  rw [strictStrtoull, show (48#8 :: 120#8 :: hexFixed width n : CString) = 48 :: 120 :: hexFixed width n from rfl,
    number]
  rfl

theorem TableItem.written_width {item : TableItem} {base : List Byte} (fits : item.Fits base.length) :
    (item.written base).1 = item.offset ∧ (item.written base).2.length ≤ item.size := by
  have length := field_length fits.inside
  refine ⟨rfl, ?_⟩
  unfold written
  cases shape : item.print with
  | string =>
    have positive := fits.positive
    simp only [List.length_append, List.length_take, List.length_singleton]
    omega
  | unsigned => exact le_of_eq length
  | xunsigned => exact le_of_eq length

theorem TableItem.written_inside {item : TableItem} {base r : List Byte} (fits : item.Fits base.length)
    (same : r.length = base.length) : (item.written base).1 + (item.written base).2.length ≤ r.length := by
  have width := written_width fits
  have inside := fits.inside
  rw [same, width.1]
  omega

theorem TableItem.load_saved {item : TableItem} {base : List Byte} (fits : item.Fits base.length) (r : List Byte) :
    item.loadJson (item.saveJson base) r = some (setField r (item.written base).1 (item.written base).2) := by
  have bound := leField_lt base item.offset item.size
  unfold loadJson saveJson written
  cases shape : item.print with
  | string => rfl
  | unsigned =>
    rcases fits.size with text | four | eight
    · simp [shape] at text
    · have loaded := strictStrtoull_unsigned32 (BitVec.ofNat 32 (leField base item.offset 4))
      obtain ⟨n, parsed, same⟩ := Option.map_eq_some_iff.mp loaded
      rw [four] at bound
      have value : n % 256 ^ 4 = leField base item.offset 4 := by
        have congruent := congrArg BitVec.toNat same
        rw [BitVec.toNat_ofNat, BitVec.toNat_ofNat] at congruent
        omega
      have bytes : leBytes 4 n = field base item.offset 4 := by
        rw [← leBytes_mod, value, leBytes_field (by rw [← four]; exact fits.inside)]
      simp only [four, if_true, parsed, Option.map_some, bytes]
    · rw [eight] at bound
      have small : leField base item.offset 8 < 2^64 := bound.trans_le (le_of_eq (by norm_num))
      have parsed : strictStrtoull (decimal (leField base item.offset 8)) 10 = some (leField base item.offset 8) := by
        rw [strictStrtoull, strtoull_decimal small]
        rfl
      have bytes : leBytes 8 (leField base item.offset 8) = field base item.offset 8 :=
        leBytes_field (by rw [← eight]; exact fits.inside)
      rw [eight, if_neg (by decide), parsed, Option.map_some, bytes]
  | xunsigned =>
    have sizes : item.size = 4 ∨ item.size = 8 := by
      rcases fits.size with text | sized
      · simp [shape] at text
      · exact sized
    have power : (256:Nat) ^ item.size = 16 ^ (2 * item.size) := by
      rw [Nat.pow_mul]
    have small : leField base item.offset item.size < 2^64 := by
      apply bound.trans_le
      rcases sizes with four | eight
      · rw [four]
        decide
      · rw [eight]
        norm_num
    simp only
    rw [strictStrtoull_hexFixed (by omega) (by rw [← power]; exact bound) small, Option.map_some,
      leBytes_field fits.inside]

theorem TableItem.loadJson_length {item : TableItem} {base next : List Byte} {s : CString}
    (fits : item.Fits base.length) (loaded : item.loadJson s base = some next) : next.length = base.length := by
  have inside := fits.inside
  unfold loadJson at loaded
  cases shape : item.print with
  | string =>
    have positive := fits.positive
    simp only [shape, Option.some.injEq] at loaded
    rw [← loaded]
    apply setField_length
    simp only [List.length_append, List.length_take, List.length_singleton]
    omega
  | unsigned =>
    simp only [shape, Option.map_eq_some_iff] at loaded
    obtain ⟨n, _, rfl⟩ := loaded
    apply setField_length
    rw [leBytes_length]
    exact inside
  | xunsigned =>
    simp only [shape, Option.map_eq_some_iff] at loaded
    obtain ⟨n, _, rfl⟩ := loaded
    apply setField_length
    rw [leBytes_length]
    exact inside

theorem cString_field {r : List Byte} {offset size : Nat} {s : CString} (text : ∀ c ∈ s, c ≠ 0#8)
    (fits : s.length + 1 ≤ size) (stored : field r offset (s ++ [0#8]).length = s ++ [0#8]) :
    cString (field r offset size) = s := by
  have split : size = (s ++ [0#8]).length + (size - (s ++ [0#8]).length) := by
    rw [List.length_append, List.length_singleton]
    omega
  rw [split, field_add, stored, cString, List.append_assoc, List.takeWhile_append_of_pos (by simpa using text)]
  simp

section Table

variable {items : List TableItem} {base init : List Byte}

def writtenFields (items : List TableItem) (base : List Byte) : List FieldWrite :=
  (items.filter fun item => !item.notSave).map fun item => item.written base

theorem loadJson_saved (fits : ∀ item ∈ items, item.notSave = false → item.Fits base.length) :
    (savedItems items).foldlM (fun loaded item => item.loadJson (item.saveJson base) loaded) init =
      some (setFields init (writtenFields items base)) := by
  have kept : ∀ item ∈ items.filter fun item => !item.notSave, item.Fits base.length := by
    intro item member
    obtain ⟨member, saved⟩ := List.mem_filter.mp member
    exact fits item member (by simpa using saved)
  simp only [savedItems, writtenFields, setFields]
  generalize items.filter (fun item => !item.notSave) = saved at kept ⊢
  induction saved generalizing init with
  | nil => rfl
  | cons item rest ih =>
    have loaded := TableItem.load_saved (kept item List.mem_cons_self) init
    have later := @ih (setField init (item.written base).1 (item.written base).2)
      (fun other member => kept other (List.mem_cons_of_mem _ member))
    rw [List.map_cons, List.foldlM_cons, List.map_cons, List.foldl_cons, ← later]
    simp only [TableItem.toItem, loaded]
    rfl

def TableItem.Disjoint (a b : TableItem) : Prop := a.offset + a.size ≤ b.offset ∨ b.offset + b.size ≤ a.offset

instance (a b : TableItem) : Decidable (a.Disjoint b) := inferInstanceAs (Decidable (_ ∨ _))

theorem writtenFields_apart (fits : ∀ item ∈ items, item.Fits base.length)
    (disjoint : items.Pairwise TableItem.Disjoint) : (writtenFields items base).Pairwise FieldWrite.Apart := by
  rw [writtenFields, List.pairwise_map]
  apply (disjoint.sublist List.filter_sublist).imp_of_mem
  intro a b memberA memberB apart
  have widthA := TableItem.written_width (fits a (List.mem_filter.mp memberA).1)
  have widthB := TableItem.written_width (fits b (List.mem_filter.mp memberB).1)
  unfold FieldWrite.Apart
  rcases apart with before | behind
  · left
    rw [widthA.1, widthB.1]
    omega
  · right
    rw [widthA.1, widthB.1]
    omega

theorem structureLoadJson_length {J : Type} {api : CJson J} {root : J} {next : List Byte}
    (fits : ∀ item ∈ items, item.notSave = false → item.Fits base.length)
    (loaded : structureLoadJson api root base (savedItems items) = some next) : next.length = base.length := by
  have kept : ∀ item ∈ items.filter fun item => !item.notSave, item.Fits base.length := by
    intro item member
    obtain ⟨member, saved⟩ := List.mem_filter.mp member
    exact fits item member (by simpa using saved)
  simp only [savedItems, structureLoadJson] at loaded
  generalize items.filter (fun item => !item.notSave) = saved at kept loaded
  induction saved generalizing base with
  | nil =>
    obtain rfl := Option.some.inj loaded
    rfl
  | cons item rest ih =>
    rw [List.map_cons, List.foldlM_cons] at loaded
    obtain ⟨first, step, later⟩ := Option.bind_eq_some_iff.mp loaded
    obtain ⟨s, _, step⟩ := Option.bind_eq_some_iff.mp step
    have length := TableItem.loadJson_length (kept item List.mem_cons_self) step
    rw [← length]
    apply ih _ _ later
    · rw [length]
      exact fits
    · rw [length]
      exact fun other member => kept other (List.mem_cons_of_mem _ member)

end Table

end ImgEditor
