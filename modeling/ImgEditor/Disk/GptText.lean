import ImgEditor.Core.Structure
import ImgEditor.Disk.GptFormat

namespace ImgEditor

open Storage CText

def xstring (len : Nat) : CString → List Byte
  | [] => []
  | [_] => []
  | c :: d :: rest =>
    if len = 0 then []
    else if isDigit 16 c = false then xstring len (d :: rest)
    else if isDigit 16 d = false then []
    else BitVec.ofNat 8 (16 * digitValue c + digitValue d) :: xstring (len - 1) rest

def uuidCharOrder : Vector (Fin 16) 16 := #v[0, 1, 2, 3, 4, 5, 6, 7, 8, 9, 10, 11, 12, 13, 14, 15]

def guidCharOrder : Vector (Fin 16) 16 := #v[3, 2, 1, 0, 5, 4, 7, 6, 8, 9, 10, 11, 12, 13, 14, 15]

inductive CharFmt where
  | lower
  | upper

def CharFmt.digit (charFmt : CharFmt) (d : Nat) : Byte :=
  match charFmt with
  | .lower => digitChar d
  | .upper => BitVec.ofNat 8 (if d < 10 then 48 + d else 55 + d)

/-- printf of a byte with `%02x` or `%02X`. -/
def CharFmt.print (charFmt : CharFmt) (b : Byte) : CString := [charFmt.digit (b.toNat / 16), charFmt.digit (b.toNat % 16)]

/-- What `snprintf_uuid` prints when the buffer has room for it. -/
def uuidText (order : Fin 16 → Fin 16) (charFmt : CharFmt) (guid : EfiGuid) : CString :=
  (List.finRange 16).flatMap fun i =>
    charFmt.print (guid.b.get (order i)) ++ (if i = 3 ∨ i = 5 ∨ i = 7 ∨ i = 9 then [45] else [])

/-- `snprintf_uuid` of a GUID with `%02x`. -/
def snprintfUuid (guid : EfiGuid) : CString :=
  (List.finRange 16).flatMap fun i =>
    hexFixed 2 guid.b[guidCharOrder[i]].toNat ++
      (if i = 3 ∨ i = 5 ∨ i = 7 ∨ i = 9 then [45] else [])

/-- `sscanf_uuid` of a GUID, with the `%02x` pairs of `s` read in the printed order. -/
def sscanfUuid (guid : EfiGuid) (s : CString) : Option EfiGuid :=
  let uuid := xstring 17 s
  if uuid.length ≠ 16 then none
  else some ⟨(List.finRange 16).foldl (fun b (i : Fin 16) =>
    b.set guidCharOrder[i].val (uuid.getD i.val 0) guidCharOrder[i].isLt) guid.b⟩

/-- `sscanf_uuid` with the order of either kind of identifier. -/
def sscanfUuidOrder (order : Fin 16 → Fin 16) (guid : EfiGuid) (s : CString) : Option EfiGuid :=
  let uuid := xstring 17 s
  if uuid.length ≠ 16 then none
  else some ⟨(List.finRange 16).foldl (fun b (i : Fin 16) =>
    b.set (order i).val (uuid.getD i.val 0) (order i).isLt) guid.b⟩

/-- The string that `structure_item_save_wchar_string` makes of a name. -/
def saveWcharString (ws : PartitionName) : CString :=
  (ws.toList.map fun unit => unit.truncate 8).takeWhile (· ≠ 0)

/-- The loop stops one unit before the end of the name. -/
def setGptPartitionName (ws : PartitionName) (s : CString) : PartitionName :=
  Vector.ofFn fun i => if i < 35 ∧ i < s.length then (s.getD i 0).signExtend 16 else ws[i]

theorem setGptPartitionName_get (ws : PartitionName) (s : CString) (i : Nat) (inside : i < 36) :
    (setGptPartitionName ws s)[i] = if i < 35 ∧ i < s.length then (s.getD i 0).signExtend 16 else ws[i] := by
  rw [setGptPartitionName, Vector.getElem_ofFn]
  rfl

theorem setGptPartitionName_toList (s : CString) : (setGptPartitionName (Vector.replicate 36 0) s).toList =
    (s.take 35).map (BitVec.signExtend 16) ++ List.replicate (36 - (s.take 35).length) 0 := by
  apply List.ext_getElem
  · simp only [Vector.length_toList, List.length_append, List.length_map, List.length_take, List.length_replicate]
    omega
  · intro i inside _
    have small : i < 36 := by simpa using inside
    rw [Vector.getElem_toList, setGptPartitionName_get _ _ i small]
    by_cases written : i < 35 ∧ i < s.length
    · rw [if_pos written, List.getElem_append_left (by simpa using written)]
      simp [List.getD_eq_getElem?_getD, written.2]
    · rw [if_neg written, List.getElem_append_right (by simp; omega)]
      simp

theorem CharFmt.digit_value (charFmt : CharFmt) {d : Nat} (small : d < 16) :
    isDigit 16 (charFmt.digit d) = true ∧ digitValue (charFmt.digit d) = d ∧ charFmt.digit d ≠ 0#8 := by
  cases charFmt with
  | lower =>
    have all : ∀ d : Fin 16, digitChar d ≠ 0#8 := by decide
    exact ⟨digitChar_digit small (le_refl _), digitValue_digitChar small, all ⟨d, small⟩⟩
  | upper =>
    have all : ∀ d : Fin 16, isDigit 16 (upper.digit d) = true ∧ digitValue (upper.digit d) = d ∧
      upper.digit d ≠ 0#8 := by decide
    exact all ⟨d, small⟩

theorem xstring_print (charFmt : CharFmt) (len : Nat) (b : Byte) (rest : CString) :
    xstring (len + 1) (charFmt.print b ++ rest) = b :: xstring len rest := by
  have bound := b.isLt
  obtain ⟨highDigit, high, _⟩ := charFmt.digit_value (show b.toNat / 16 < 16 by omega)
  obtain ⟨lowDigit, low, _⟩ := charFmt.digit_value (show b.toNat % 16 < 16 by omega)
  have value : 16 * (b.toNat / 16) + b.toNat % 16 = b.toNat := by omega
  rw [CharFmt.print, List.cons_append, List.cons_append, List.nil_append, xstring, highDigit, lowDigit, high, low, value]
  simp

theorem xstring_dash (len : Nat) (rest : CString) : xstring (len + 1) (45#8 :: rest) = xstring (len + 1) rest := by
  cases rest with
  | nil => rfl
  | cons d rest =>
    rw [xstring, if_neg (by omega), if_pos (by decide)]

theorem xstring_last (charFmt : CharFmt) (len : Nat) (b : Byte) : xstring (len + 1) (charFmt.print b) = [b] := by
  have pair := xstring_print charFmt len b []
  rwa [List.append_nil, xstring] at pair

theorem foldl_set_getElem {α : Type} {n : Nat} (order : Fin n → Fin n) (injective : Function.Injective order)
    (value : Fin n → α) (places : List (Fin n)) (distinct : places.Nodup) (init : Vector α n) (j : Fin n) :
    (places.foldl (fun b (i : Fin n) => b.set (order i).val (value i) (order i).isLt) init)[order j] =
      if j ∈ places then value j else init[order j] := by
  induction places generalizing init with
  | nil => rfl
  | cons i rest ih =>
    obtain ⟨fresh, distinctRest⟩ := List.nodup_cons.mp distinct
    rw [List.foldl_cons, ih distinctRest]
    by_cases later : j ∈ rest
    · rw [if_pos later, if_pos (List.mem_cons_of_mem _ later)]
    · rw [if_neg later]
      by_cases here : j = i
      · subst here
        rw [if_pos List.mem_cons_self]
        exact Vector.getElem_set_self _
      · rw [if_neg (by simp [here, later])]
        apply Vector.getElem_set_ne
        exact fun same => here (injective (Fin.ext same)).symm

theorem guidCharOrder_involutive : Function.Involutive guidCharOrder.get := by
  unfold Function.Involutive
  decide

theorem xstring_uuidText (order : Fin 16 → Fin 16) (charFmt : CharFmt) (guid : EfiGuid) :
    xstring 17 (uuidText order charFmt guid) = (List.finRange 16).map fun i => guid.b.get (order i) := by
  simp only [uuidText, List.finRange_succ, List.finRange_zero, List.flatMap_cons, List.flatMap_nil,
    List.map_cons, List.map_nil]
  simp [xstring_print, xstring_dash, xstring_last]

/-- An order that is its own inverse puts every byte back where it was taken from. -/
theorem sscanfUuidOrder_uuidText {order : Fin 16 → Fin 16} (involutive : Function.Involutive order) (charFmt : CharFmt)
    (old guid : EfiGuid) : sscanfUuidOrder order old (uuidText order charFmt guid) = some guid := by
  simp only [sscanfUuidOrder, xstring_uuidText]
  rw [if_neg (by simp)]
  obtain ⟨b⟩ := guid
  have same : ∀ k : Fin 16, ((List.finRange 16).foldl (fun b' (i : Fin 16) => b'.set (order i).val
      (((List.finRange 16).map fun i => b.get (order i)).getD i.val 0) (order i).isLt) old.b)[k] = b[k] := by
    intro k
    obtain ⟨j, rfl⟩ := involutive.surjective k
    have place := foldl_set_getElem order involutive.injective
      (fun i => ((List.finRange 16).map fun i => b.get (order i)).getD i.val 0) (List.finRange 16)
      (List.nodup_finRange 16) old.b j
    rw [if_pos (List.mem_finRange _)] at place
    have read : ((List.finRange 16).map fun i => b.get (order i)).getD j.val 0 = b.get (order j) := by
      simp [List.getD_eq_getElem?_getD]
    exact place.trans read
  simp only [Option.some.injEq, EfiGuid.mk.injEq]
  ext1 k inside
  exact same ⟨k, inside⟩

theorem snprintfUuid_text (guid : EfiGuid) : snprintfUuid guid = uuidText guidCharOrder.get .lower guid := by
  have pair : ∀ b : Byte, hexFixed 2 b.toNat = CharFmt.lower.print b := by
    intro b
    have bound := b.isLt
    simp only [hexFixed, List.nil_append, List.singleton_append, CharFmt.print, CharFmt.digit]
    rw [Nat.mod_eq_of_lt (show b.toNat / 16 < 16 by omega)]
  simp only [snprintfUuid, uuidText, pair]
  rfl

theorem sscanfUuid_snprintfUuid (old guid : EfiGuid) : sscanfUuid old (snprintfUuid guid) = some guid := by
  rw [snprintfUuid_text]
  exact sscanfUuidOrder_uuidText guidCharOrder_involutive .lower old guid

end ImgEditor
