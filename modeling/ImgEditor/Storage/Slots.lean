import Mathlib.Data.List.Basic

namespace Storage

section Slots

variable {α : Type} {blank : α} {slots : Nat} {items : List α}

/-- An array of `slots` elements whose first ones are `items`; items without a slot are left out. -/
def filledSlots (blank : α) (slots : Nat) (items : List α) : List α := (items ++ List.replicate slots blank).take slots

@[simp] theorem filledSlots_length : (filledSlots blank slots items).length = slots := by simp [filledSlots]

theorem filledSlots_zero : filledSlots blank 0 items = [] := List.take_zero

theorem filledSlots_nil : filledSlots blank slots [] = List.replicate slots blank := by simp [filledSlots]

theorem filledSlots_cons (item : α) : filledSlots blank (slots + 1) (item :: items) = item :: filledSlots blank slots items := by
  unfold filledSlots
  rw [List.cons_append, List.take_succ_cons, List.replicate_succ', ← List.append_assoc, List.take_append_of_le_length]
  simp

theorem filledSlots_take {count : Nat} (inside : count ≤ slots) :
    (filledSlots blank slots items).take count = filledSlots blank count items := by
  unfold filledSlots
  obtain ⟨more, rfl⟩ := Nat.exists_eq_add_of_le inside
  rw [List.take_take, Nat.min_eq_left inside, List.replicate_add, ← List.append_assoc, List.take_append_of_le_length]
  simp

theorem filledSlots_blank (count : Nat) :
    filledSlots blank slots (items ++ List.replicate count blank) = filledSlots blank slots items := by
  unfold filledSlots
  rw [List.append_assoc, ← List.replicate_add, Nat.add_comm, List.replicate_add, ← List.append_assoc,
    List.take_append_of_le_length]
  simp

/-- The slot behind the items is blank. -/
theorem filledSlots_modify (inside : items.length < slots) (f : α → α) :
    (filledSlots blank slots items).modify items.length f = filledSlots blank slots (items ++ [f blank]) := by
  induction items generalizing slots with
  | nil =>
    cases slots with
    | zero => exact absurd inside (Nat.lt_irrefl 0)
    | succ slots =>
      rw [List.nil_append, filledSlots_cons, filledSlots_nil, filledSlots_nil, List.replicate_succ]
      rfl
  | cons item items ih =>
    cases slots with
    | zero => exact absurd inside (Nat.not_lt_zero _)
    | succ slots =>
      rw [List.cons_append, filledSlots_cons, filledSlots_cons, ← ih (Nat.lt_of_succ_lt_succ inside)]
      rfl

variable {p : α → Bool}

theorem filter_filledSlots_blank (unused : p blank = false) (count : Nat) :
    (filledSlots blank slots (List.replicate count blank ++ items)).filter p =
      (filledSlots blank (slots - count) items).filter p := by
  induction count generalizing slots with
  | zero => rfl
  | succ count ih =>
    cases slots with
    | zero =>
      rw [Nat.zero_sub, filledSlots_zero, filledSlots_zero]
    | succ slots =>
      rw [List.replicate_succ, List.cons_append, filledSlots_cons, List.filter_cons_of_neg (by simp [unused]), ih,
        Nat.add_sub_add_right]

theorem filter_filledSlots_nil (unused : p blank = false) : (filledSlots blank slots []).filter p = [] := by
  simp [filledSlots_nil, unused]

/-- One element that changes adds at most one to a count. -/
theorem countP_modify_le {l : List α} {i : Nat} (inside : i < l.length) (f : α → α) :
    (l.modify i f).countP p ≤ l.countP p + 1 ∧
      ((l.modify i f).countP p = l.countP p + 1 → p l[i] = false ∧ p (f l[i]) = true) := by
  obtain ⟨before, item, behind, rfl, rfl, changed⟩ := List.exists_of_modify f inside
  rw [changed]
  have here : (before ++ item :: behind)[before.length] = item := List.getElem_of_append rfl rfl
  rw [here]
  simp only [List.countP_append, List.countP_cons]
  cases p item <;> cases p (f item) <;> simp <;> omega

end Slots

end Storage
