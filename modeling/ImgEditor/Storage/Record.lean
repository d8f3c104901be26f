import ImgEditor.Storage.Bytes

namespace Storage

def field (r : List Byte) (offset width : Nat) : List Byte := (r.drop offset).take width

def setField (r : List Byte) (offset : Nat) (bytes : List Byte) : List Byte :=
  r.take offset ++ bytes ++ r.drop (offset + bytes.length)

theorem leField_eq (r : List Byte) (offset width : Nat) : leField r offset width = leNumber (field r offset width) := rfl

theorem field_length {r : List Byte} {offset width : Nat} (inside : offset + width ≤ r.length) :
    (field r offset width).length = width := by
  rw [field, List.length_take, List.length_drop]
  omega

@[simp] theorem setField_length {r : List Byte} {offset : Nat} {bytes : List Byte}
    (inside : offset + bytes.length ≤ r.length) : (setField r offset bytes).length = r.length := by
  simp only [setField, List.length_append, List.length_take, List.length_drop]
  omega

theorem field_add (r : List Byte) (offset left right : Nat) :
    field r offset (left + right) = field r offset left ++ field r (offset + left) right := by
  simp only [field, List.take_add, List.drop_drop]

theorem take_field (r : List Byte) (offset width : Nat) :
    r.take (offset + width) = r.take offset ++ field r offset width := by
  rw [field, List.take_add]

theorem field_setField {r : List Byte} {offset : Nat} {bytes : List Byte} (inside : offset + bytes.length ≤ r.length) :
    field (setField r offset bytes) offset bytes.length = bytes := by
  have before : (r.take offset).length = offset := by
    rw [List.length_take]
    omega
  rw [field, setField, List.append_assoc, List.drop_append_of_le_length (le_of_eq before.symm),
    List.drop_of_length_le (le_of_eq before), List.nil_append, List.take_left']
  rfl

theorem field_setField_apart {r : List Byte} {offset width at_ : Nat} {bytes : List Byte}
    (inside : at_ + bytes.length ≤ r.length)
    (apart : offset + width ≤ at_ ∨ at_ + bytes.length ≤ offset) :
    field (setField r at_ bytes) offset width = field r offset width := by
  apply List.ext_getElem?
  intro i
  have front : (r.take at_).length = at_ := by
    rw [List.length_take]
    omega
  simp only [field, List.getElem?_take, List.getElem?_drop]
  by_cases bound : i < width
  · rw [if_pos bound, if_pos bound]
    rcases apart with below | above
    · rw [setField, List.append_assoc, List.getElem?_append_left (by omega), List.getElem?_take_of_lt (by omega)]
    · rw [setField, List.getElem?_append_right (by simp only [List.length_append, front]; omega),
        List.length_append, front, List.getElem?_drop]
      congr 1
      omega
  · rw [if_neg bound, if_neg bound]

theorem setField_front {r : List Byte} {offset width : Nat} {bytes : List Byte} (inside : offset + width ≤ r.length)
    (wide : bytes.length ≤ width) :
    setField r offset (bytes ++ (field r offset width).drop bytes.length) = setField r offset bytes := by
  have length : (bytes ++ (field r offset width).drop bytes.length).length = width := by
    rw [List.length_append, List.length_drop, field_length inside]
    omega
  have rest : (field r offset width).drop bytes.length ++ r.drop (offset + width) = r.drop (offset + bytes.length) := by
    have split := List.take_append_drop (width - bytes.length) (r.drop (offset + bytes.length))
    rw [List.drop_drop] at split
    rw [field, List.drop_take, List.drop_drop, show offset + width = offset + bytes.length + (width - bytes.length) by omega]
    exact split
  rw [setField, length, List.append_assoc, List.append_assoc, rest, ← List.append_assoc]
  rfl

abbrev FieldWrite := Nat × List Byte

def setFields (r : List Byte) (writes : List FieldWrite) : List Byte :=
  writes.foldl (fun r write => setField r write.1 write.2) r

theorem setFields_append (r : List Byte) (first second : List FieldWrite) :
    setFields r (first ++ second) = setFields (setFields r first) second := List.foldl_append

def FieldWrite.Apart (a b : FieldWrite) : Prop := a.1 + a.2.length ≤ b.1 ∨ b.1 + b.2.length ≤ a.1

section Writes

variable {r : List Byte} {writes : List FieldWrite}

theorem setFields_length (inside : ∀ write ∈ writes, write.1 + write.2.length ≤ r.length) :
    (setFields r writes).length = r.length := by
  induction writes generalizing r with
  | nil => rfl
  | cons write rest ih =>
    have here := setField_length (inside write List.mem_cons_self)
    rw [setFields, List.foldl_cons]
    rw [← here]
    apply ih
    rw [here]
    exact fun other member => inside other (List.mem_cons_of_mem _ member)

theorem field_setFields_apart {offset width : Nat} (inside : ∀ write ∈ writes, write.1 + write.2.length ≤ r.length)
    (apart : ∀ write ∈ writes, offset + width ≤ write.1 ∨ write.1 + write.2.length ≤ offset) :
    field (setFields r writes) offset width = field r offset width := by
  induction writes generalizing r with
  | nil => rfl
  | cons write rest ih =>
    have here := inside write List.mem_cons_self
    rw [setFields, List.foldl_cons]
    have later := @ih (setField r write.1 write.2)
      (by
        rw [setField_length here]
        exact fun other member => inside other (List.mem_cons_of_mem _ member))
      (fun other member => apart other (List.mem_cons_of_mem _ member))
    rw [setFields] at later
    rw [later, field_setField_apart here (apart write List.mem_cons_self)]

theorem field_setFields {write : FieldWrite} (inside : ∀ write ∈ writes, write.1 + write.2.length ≤ r.length)
    (apart : writes.Pairwise FieldWrite.Apart) (member : write ∈ writes) :
    field (setFields r writes) write.1 write.2.length = write.2 := by
  induction writes generalizing r with
  | nil => exact absurd member List.not_mem_nil
  | cons head rest ih =>
    obtain ⟨headApart, restApart⟩ := List.pairwise_cons.mp apart
    have here := inside head List.mem_cons_self
    have rest_inside : ∀ other ∈ rest, other.1 + other.2.length ≤ (setField r head.1 head.2).length := by
      rw [setField_length here]
      exact fun other member => inside other (List.mem_cons_of_mem _ member)
    rw [setFields, List.foldl_cons]
    rcases List.mem_cons.mp member with rfl | later
    · have kept := field_setFields_apart rest_inside headApart
      rw [setFields] at kept
      rw [kept, field_setField here]
    · exact ih rest_inside restApart later

end Writes

end Storage
