import ImgEditor.Storage.Record

namespace Storage

/-- A write of bytes at an offset of an object: `none` when a byte would be outside. -/
def overwrite (r : List Byte) (offset : Nat) (bytes : List Byte) : Option (List Byte) :=
  if bytes = [] ∨ offset + bytes.length ≤ r.length then some (setField r offset bytes) else none

section Overwrite

variable {r r' front bytes : List Byte} {offset : Nat}

theorem overwrite_inside (inside : offset + bytes.length ≤ r.length) :
    overwrite r offset bytes = some (setField r offset bytes) := if_pos (.inr inside)

theorem overwrite_outside (some_ : bytes ≠ []) (outside : r.length < offset + bytes.length) :
    overwrite r offset bytes = none := by
  rw [overwrite, if_neg]
  intro written
  cases written with
  | inl none_ => exact some_ none_
  | inr inside => omega

theorem overwrite_length (written : overwrite r offset bytes = some r') : r'.length = r.length := by
  unfold overwrite at written
  split at written
  · rename_i inside
    rw [← Option.some.inj written]
    cases inside with
    | inl none_ => rw [none_, setField, List.append_nil, List.length_nil, Nat.add_zero, List.take_append_drop]
    | inr inside => exact setField_length inside
  · cases written

theorem setField_extends (starts : front <+: r) (bytes : List Byte) : front ++ bytes <+: setField r front.length bytes := by
  rw [setField, ← List.prefix_iff_eq_take.mp starts]
  exact List.prefix_append _ _

theorem setField_keeps (starts : front <+: r) (behind : front.length ≤ offset) (bytes : List Byte) :
    front <+: setField r offset bytes := by
  rw [setField, List.append_assoc]
  exact (List.prefix_take_iff.mpr ⟨starts, behind⟩).trans (List.prefix_append _ _)

theorem field_prefix {text : List Byte} (starts : front ++ text <+: r) : field r front.length text.length = text := by
  obtain ⟨rest, rfl⟩ := starts
  rw [field, List.append_assoc, List.drop_left, List.take_left]

theorem prefix_field {text : List Byte} (starts : front <+: r) (same : field r front.length text.length = text) :
    front ++ text <+: r := by
  obtain ⟨rest, rfl⟩ := starts
  rw [field, List.drop_left] at same
  exact List.prefix_append_right_inj front |>.mpr (List.prefix_iff_eq_take.mpr same.symm)

end Overwrite

end Storage
