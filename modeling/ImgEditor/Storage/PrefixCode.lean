import Mathlib.Data.List.Flatten
import Mathlib.Data.List.TakeWhile

namespace Storage

section Code

variable {α β : Type} {valid : α → Prop} {code : α → List β}

/-- No code word of a valid symbol starts the code word of another one. -/
def PrefixFree (valid : α → Prop) (code : α → List β) : Prop :=
  ∀ x y, valid x → valid y → code x <+: code y → x = y

theorem PrefixFree.cons_inj (free : PrefixFree valid code) {x y : α} (validX : valid x) (validY : valid y)
    {s t : List β} (same : code x ++ s = code y ++ t) : x = y ∧ s = t := by
  have equal : x = y := by
    rcases List.prefix_or_prefix_of_prefix (List.prefix_append (code x) s) (same ▸ List.prefix_append (code y) t) with
      first | second
    · exact free x y validX validY first
    · exact (free y x validY validX second).symm
  rw [equal] at same
  exact ⟨equal, List.append_cancel_left same⟩

theorem PrefixFree.header (free : PrefixFree valid code) (header : List β) :
    PrefixFree valid fun x => header ++ code x :=
  fun x y validX validY starts => free x y validX validY ((List.prefix_append_right_inj header).mp starts)

/-- A text of code words is read in one way only. -/
theorem PrefixFree.flatMap_inj (free : PrefixFree valid code) (some_ : ∀ x, code x ≠ []) {xs ys : List α}
    (validX : ∀ x ∈ xs, valid x) (validY : ∀ y ∈ ys, valid y) (same : xs.flatMap code = ys.flatMap code) : xs = ys := by
  induction xs generalizing ys with
  | nil =>
    cases ys with
    | nil => rfl
    | cons y ys => exact absurd (List.append_eq_nil_iff.mp same.symm).1 (some_ y)
  | cons x xs ih =>
    cases ys with
    | nil => exact absurd (List.append_eq_nil_iff.mp same).1 (some_ x)
    | cons y ys =>
      rw [List.flatMap_cons, List.flatMap_cons] at same
      obtain ⟨rfl, rest⟩ := free.cons_inj (validX x List.mem_cons_self) (validY y List.mem_cons_self) same
      rw [ih (fun z member => validX z (List.mem_cons_of_mem _ member))
        (fun z member => validY z (List.mem_cons_of_mem _ member)) rest]

end Code

section Columns

variable {α β : Type}

/-- Columns of the same widths agree one by one. -/
theorem flatMap_columns {f g : α → List β} {xs : List α} (width : ∀ x ∈ xs, (f x).length = (g x).length)
    (same : xs.flatMap f = xs.flatMap g) : ∀ x ∈ xs, f x = g x := by
  induction xs with
  | nil => exact fun x member => nomatch member
  | cons x xs ih =>
    rw [List.flatMap_cons, List.flatMap_cons] at same
    obtain ⟨head, tail⟩ := List.append_inj same (width x List.mem_cons_self)
    intro z member
    cases List.mem_cons.mp member with
    | inl first => exact first ▸ head
    | inr later => exact ih (fun z inside => width z (List.mem_cons_of_mem _ inside)) tail z later

/-- A field ends at the first character that it cannot hold. -/
theorem field_ends {p : β → Bool} {front front' rest rest' : List β} {c c' : β}
    (inside : ∀ d ∈ front, p d = true) (inside' : ∀ d ∈ front', p d = true) (stop : p c = false) (stop' : p c' = false)
    (same : front ++ c :: rest = front' ++ c' :: rest') : front = front' ∧ c = c' ∧ rest = rest' := by
  have taken : ∀ {front rest : List β} {c : β}, (∀ d ∈ front, p d = true) → p c = false →
      (front ++ c :: rest).takeWhile p = front := by
    intro front rest c inside stop
    rw [List.takeWhile_append_of_pos inside, List.takeWhile_cons_of_neg (by rw [stop]; decide), List.append_nil]
  have fronts := congrArg (List.takeWhile p) same
  rw [taken inside stop, taken inside' stop'] at fronts
  rw [fronts] at same
  exact ⟨fronts, List.cons.inj (List.append_cancel_left same)⟩

end Columns

end Storage
