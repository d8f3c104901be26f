import Mathlib.Data.List.DropRight
import Mathlib.Data.List.TakeDrop

namespace Storage

/-- What a listing in lines of one width shows: lines with their offsets, a mark for lines that repeat the line shown
last, and the offset where it ended. -/
inductive Squeezed (α : Type) where
  | star
  | line (offset : Nat) (items : List α)
  | ended (offset : Nat)
deriving DecidableEq

def Squeezed.offset? {α : Type} : Squeezed α → Option Nat
  | .star => none
  | .line offset _ => some offset
  | .ended offset => some offset

def Squeezed.Within {α : Type} (w bound : Nat) : Squeezed α → Prop
  | .star => True
  | .line offset items => offset ≤ bound ∧ items.length ≤ w
  | .ended offset => offset ≤ bound

section Listing

variable {α : Type} [DecidableEq α] (w : Nat)

/-- The listing from an offset on, behind the line shown last. -/
def squeeze (offset : Nat) (previous : List α) (skip : Bool) : List α → List (Squeezed α)
  | [] => [.ended offset]
  | c :: more =>
    let line := (c :: more).take w
    if previous.take line.length = line then
      if skip then squeeze (offset + w) previous true (more.drop (w - 1))
      else .star :: squeeze (offset + w) previous true (more.drop (w - 1))
    else .line offset line :: squeeze (offset + w) line false (more.drop (w - 1))
termination_by rest => rest.length
decreasing_by
  all_goals
    simp only [List.length_drop, List.length_cons]
    omega

def squeezed (items : List α) : List (Squeezed α) :=
  if items = [] then [.ended 0] else .line 0 (items.take w) :: squeeze w w (items.take w) false (items.drop w)

/-- Two lists that go on with the same line and end in different fronts of the same line once more. -/
def ClippedApart (x y : List α) : Prop :=
  ∃ front line k m, w ∣ front.length ∧ line.length = w ∧ (1 ≤ k ∧ k ≤ w) ∧ (1 ≤ m ∧ m ≤ w) ∧ k ≠ m ∧
    x = front ++ line ++ line.take k ∧ y = front ++ line ++ line.take m

end Listing

section Step

variable {α : Type} [DecidableEq α] {w offset : Nat} {previous rest : List α}

omit [DecidableEq α] in
theorem drop_line (positive : 0 < w) (c : α) (more : List α) : (c :: more).drop w = more.drop (w - 1) := by
  rw [← Nat.sub_add_cancel positive, List.drop_succ_cons, Nat.add_sub_cancel]

omit [DecidableEq α] in
theorem drop_shorter (positive : 0 < w) (some_ : rest ≠ []) : (rest.drop w).length < rest.length := by
  have length := List.length_pos_iff.mpr some_
  rw [List.length_drop]
  omega

theorem squeeze_repeats (positive : 0 < w) (some_ : rest ≠ [])
    (repeats : previous.take (rest.take w).length = rest.take w) (skip : Bool) :
    squeeze w offset previous skip rest =
      (if skip then [] else [.star]) ++ squeeze w (offset + w) previous true (rest.drop w) := by
  cases rest with
  | nil => exact absurd rfl some_
  | cons c more =>
    rw [squeeze, drop_line positive]
    simp only [repeats, ↓reduceIte]
    cases skip with
    | false => rfl
    | true => rfl

theorem squeeze_differs (positive : 0 < w) (some_ : rest ≠ [])
    (differs : previous.take (rest.take w).length ≠ rest.take w) (skip : Bool) :
    squeeze w offset previous skip rest =
      .line offset (rest.take w) :: squeeze w (offset + w) (rest.take w) false (rest.drop w) := by
  cases rest with
  | nil => exact absurd rfl some_
  | cons c more =>
    rw [squeeze, drop_line positive]
    simp only [differs, ↓reduceIte]

end Step

section Clipped

variable {α : Type} {w : Nat} {previous a b x y : List α}

theorem ClippedApart.behind (clipped : ClippedApart w a b) (whole : w ∣ previous.length) :
    ClippedApart w (previous ++ a) (previous ++ b) := by
  obtain ⟨front, line, k, m, lines, width, kept, kept', apart, rfl, rfl⟩ := clipped
  refine ⟨previous ++ front, line, k, m, ?_, width, kept, kept', apart, ?_, ?_⟩
  · rw [List.length_append]
    exact Nat.dvd_add whole lines
  all_goals simp only [List.append_assoc]

theorem ClippedApart.last {line : List α} (width : line.length = w) {k m : Nat} (kept : 1 ≤ k ∧ k ≤ w)
    (kept' : 1 ≤ m ∧ m ≤ w) (apart : k ≠ m) : ClippedApart w (line ++ line.take k) (line ++ line.take m) :=
  ⟨[], line, k, m, Nat.dvd_zero w, width, kept, kept', apart, rfl, rfl⟩

theorem ClippedApart.line (clipped : ClippedApart w a b) : a.take w = b.take w ∧ (a.take w).length = w := by
  obtain ⟨front, line, k, m, lines, width, _, _, _, rfl, rfl⟩ := clipped
  have long : w ≤ (front ++ line).length := by
    rw [List.length_append]
    omega
  rw [List.take_append_of_le_length long, List.take_append_of_le_length long]
  exact ⟨rfl, List.length_take_of_le long⟩

theorem ClippedApart.longer (clipped : ClippedApart w a b) : w < a.length ∧ w < b.length := by
  obtain ⟨front, line, k, m, lines, width, kept, kept', _, rfl, rfl⟩ := clipped
  simp only [List.length_append, List.length_take]
  omega

/-- Behind a line, the lists are the fronts of the line, or they are clipped apart themselves. -/
theorem ClippedApart.step (width : previous.length = w) (clipped : ClippedApart w (previous ++ a) (previous ++ b)) :
    (∃ k m, (1 ≤ k ∧ k ≤ w) ∧ (1 ≤ m ∧ m ≤ w) ∧ a = previous.take k ∧ b = previous.take m) ∨ ClippedApart w a b := by
  obtain ⟨front, line, k, m, lines, width', kept, kept', apart, first, second⟩ := clipped
  by_cases empty : front = []
  · rw [empty, List.nil_append] at first second
    obtain ⟨same, whole⟩ := List.append_inj first (width.trans width'.symm)
    rw [same]
    exact .inl ⟨k, m, kept, kept', whole, (List.append_inj second (width.trans width'.symm)).2⟩
  · have long : w ≤ front.length := Nat.le_of_dvd (List.length_pos_iff.mpr empty) lines
    have split : front = previous ++ front.drop w := by
      have taken := congrArg (List.take w) first
      rw [List.take_left' width, List.append_assoc, List.take_append_of_le_length long] at taken
      rw [taken, List.take_append_drop]
    rw [split, List.append_assoc, List.append_assoc] at first second
    refine .inr ⟨front.drop w, line, k, m, ?_, width', kept, kept', apart, ?_, ?_⟩
    · rw [List.length_drop]
      exact Nat.dvd_sub lines (Nat.dvd_refl w)
    · rw [List.append_assoc]
      exact List.append_cancel_left first
    · rw [List.append_assoc]
      exact List.append_cancel_left second

theorem repeats_whole (width : previous.length = w) (repeats : previous.take (a.take w).length = a.take w)
    (long : w ≤ a.length) : a.take w = previous := by
  rw [← repeats, List.length_take_of_le long, ← width, List.take_length]

theorem repeats_last (repeats : previous.take (a.take w).length = a.take w) (short : a.length ≤ w) :
    a = previous.take a.length := by
  rw [List.take_of_length_le short] at repeats
  exact repeats.symm

/-- Two lists whose first lines repeat the line before. -/
theorem repeats_inj (width : previous.length = w) (someA : a ≠ []) (someB : b ≠ [])
    (repeatsA : previous.take (a.take w).length = a.take w) (repeatsB : previous.take (b.take w).length = b.take w)
    (rest : a.drop w = b.drop w ∨ ClippedApart w (previous ++ a.drop w) (previous ++ b.drop w)) :
    a = b ∨ ClippedApart w (previous ++ a) (previous ++ b) := by
  have lengthA := List.length_pos_iff.mpr someA
  have lengthB := List.length_pos_iff.mpr someB
  have whole : ∀ {c : List α}, previous.take (c.take w).length = c.take w → w ≤ c.length → previous ++ c.drop w = c := by
    intro c repeats long
    have taken := repeats_whole width repeats long
    rw [← taken, List.take_append_drop]
  cases rest with
  | inl equal =>
    have lengths := congrArg List.length equal
    rw [List.length_drop, List.length_drop] at lengths
    by_cases same : a.length = b.length
    · by_cases long : w ≤ a.length
      · exact .inl (by rw [← whole repeatsA long, ← whole repeatsB (by omega), equal])
      · rw [repeats_last repeatsA (by omega), repeats_last repeatsB (by omega), same]
        exact .inl rfl
    · rw [repeats_last repeatsA (by omega), repeats_last repeatsB (by omega)]
      exact .inr (ClippedApart.last width (by omega) (by omega) same)
  | inr clipped =>
    have longer := clipped.longer
    rw [List.length_append, List.length_append, List.length_drop, List.length_drop] at longer
    rw [whole repeatsA (by omega), whole repeatsB (by omega)] at clipped
    exact .inr (clipped.behind ⟨1, by omega⟩)

end Clipped

section Unique

variable {α : Type} [DecidableEq α] {w : Nat} (positive : 0 < w)
include positive

theorem squeeze_within {offset bound : Nat} {previous rest : List α} {skip : Bool}
    (room : offset + w * rest.length ≤ bound) : ∀ token ∈ squeeze w offset previous skip rest, token.Within w bound := by
  induction size : rest.length using Nat.strong_induction_on generalizing offset previous rest skip with
  | _ n ih =>
    by_cases empty : rest = []
    · rw [empty, squeeze]
      intro token member
      rw [List.mem_singleton.mp member]
      exact Nat.le_of_add_right_le room
    have length : (rest.drop w).length + 1 ≤ rest.length := drop_shorter positive empty
    have room' : offset + w + w * (rest.drop w).length ≤ bound := by
      have scaled := Nat.mul_le_mul_left w length
      rw [Nat.mul_add_one] at scaled
      omega
    intro token member
    by_cases repeats : previous.take (rest.take w).length = rest.take w
    · rw [squeeze_repeats positive empty repeats] at member
      cases List.mem_append.mp member with
      | inl mark =>
        cases skip with
        | false =>
          rw [List.mem_singleton.mp mark]
          exact trivial
        | true => cases mark
      | inr later => exact ih _ (by omega) room' rfl token later
    · rw [squeeze_differs positive empty repeats] at member
      cases List.mem_cons.mp member with
      | inl first =>
        rw [first]
        exact ⟨Nat.le_of_add_right_le room, List.length_take_le w rest⟩
      | inr later => exact ih _ (by omega) room' rfl token later

theorem squeezed_within (items : List α) : ∀ token ∈ squeezed w items, token.Within w (w * (items.length + 1)) := by
  intro token member
  unfold squeezed at member
  split at member
  · rw [List.mem_singleton.mp member]
    exact Nat.zero_le _
  · cases List.mem_cons.mp member with
    | inl first =>
      rw [first]
      exact ⟨Nat.zero_le _, List.length_take_le w items⟩
    | inr later =>
      apply squeeze_within positive _ token later
      have fewer : (items.drop w).length ≤ items.length := by
        rw [List.length_drop]
        exact Nat.sub_le _ _
      have scaled := Nat.mul_le_mul_left w fewer
      rw [Nat.mul_add_one]
      omega

/-- While lines are left out, the next entry tells an offset that has been reached. -/
theorem squeeze_skips (offset : Nat) (previous rest : List α) :
    ∃ token more, squeeze w offset previous true rest = token :: more ∧
      ∃ j, offset ≤ j ∧ token.offset? = some j := by
  induction size : rest.length using Nat.strong_induction_on generalizing offset rest with
  | _ n ih =>
    by_cases empty : rest = []
    · rw [empty, squeeze]
      exact ⟨_, _, rfl, offset, le_refl _, rfl⟩
    have shorter : (rest.drop w).length < n := size ▸ drop_shorter positive empty
    by_cases repeats : previous.take (rest.take w).length = rest.take w
    · rw [squeeze_repeats positive empty repeats, if_pos rfl, List.nil_append]
      obtain ⟨token, more, shown, j, reached, known⟩ := ih _ shorter (offset + w) (rest.drop w) rfl
      exact ⟨token, more, shown, j, by omega, known⟩
    · rw [squeeze_differs positive empty repeats]
      exact ⟨_, _, rfl, offset, le_refl _, rfl⟩

theorem squeeze_ne_nil (offset : Nat) (previous rest : List α) (skip : Bool) : squeeze w offset previous skip rest ≠ [] := by
  by_cases empty : rest = []
  · rw [empty, squeeze]
    exact List.cons_ne_nil _ _
  by_cases repeats : previous.take (rest.take w).length = rest.take w
  · obtain ⟨token, more, shown, _⟩ := squeeze_skips positive (offset + w) previous (rest.drop w)
    rw [squeeze_repeats positive empty repeats, shown]
    exact List.append_ne_nil_of_right_ne_nil _ (List.cons_ne_nil _ _)
  · rw [squeeze_differs positive empty repeats]
    exact List.cons_ne_nil _ _

/-- The listing of a line that repeats the line before does not begin with its offset. -/
theorem squeeze_repeats_head {offset : Nat} {previous rest : List α} (some_ : rest ≠ [])
    (repeats : previous.take (rest.take w).length = rest.take w) {skip : Bool} {token : Squeezed α}
    {more : List (Squeezed α)} (shown : squeeze w offset previous skip rest = token :: more) :
    token.offset? ≠ some offset := by
  rw [squeeze_repeats positive some_ repeats] at shown
  cases skip with
  | false =>
    rw [← (List.cons.inj shown).1]
    exact nofun
  | true =>
    obtain ⟨token', more', shown', j, reached, known⟩ := squeeze_skips positive (offset + w) previous (rest.drop w)
    rw [if_pos rfl, List.nil_append, shown'] at shown
    rw [← (List.cons.inj shown).1, known]
    intro same
    have := Option.some.inj same
    omega

theorem squeeze_ended {offset : Nat} {previous rest : List α} {skip : Bool}
    (shown : squeeze w offset previous skip rest = [.ended offset]) : rest = [] := by
  by_contra some_
  by_cases repeats : previous.take (rest.take w).length = rest.take w
  · exact squeeze_repeats_head positive some_ repeats shown rfl
  · rw [squeeze_differs positive some_ repeats] at shown
    cases (List.cons.inj shown).1

omit positive in
theorem squeeze_line_inj {offset : Nat} {a b : List α}
    (rest : ∀ line : List α, line.length = w →
      squeeze w offset line false (a.drop w) = squeeze w offset line false (b.drop w) →
      a.drop w = b.drop w ∨ ClippedApart w (line ++ a.drop w) (line ++ b.drop w))
    (line : a.take w = b.take w)
    (same : squeeze w offset (a.take w) false (a.drop w) = squeeze w offset (b.take w) false (b.drop w)) :
    a = b ∨ ClippedApart w a b := by
  have splitA := List.take_append_drop w a
  have splitB := List.take_append_drop w b
  rw [← line] at same splitB
  by_cases whole : (a.take w).length = w
  · cases rest (a.take w) whole same with
    | inl equal =>
      rw [← equal, splitA] at splitB
      exact .inl splitB
    | inr clipped =>
      rw [splitA, splitB] at clipped
      exact .inr clipped
  · have short : a.length ≤ w := by
      rw [List.length_take] at whole
      omega
    have short' : b.length ≤ w := by
      rw [line, List.length_take] at whole
      omega
    rw [List.take_of_length_le short, List.take_of_length_le short'] at line
    exact .inl line

/-- The listing tells what it was made of, up to a last line that only repeats a front of the line before. -/
theorem squeeze_inj {offset : Nat} {previous a b : List α} {skip : Bool} (width : previous.length = w)
    (same : squeeze w offset previous skip a = squeeze w offset previous skip b) :
    a = b ∨ ClippedApart w (previous ++ a) (previous ++ b) := by
  induction size : a.length using Nat.strong_induction_on generalizing offset previous a b skip with
  | _ n ih =>
    by_cases emptyA : a = []
    · rw [emptyA, squeeze] at same
      exact .inl (emptyA.trans (squeeze_ended positive same.symm).symm)
    by_cases emptyB : b = []
    · rw [emptyB, squeeze] at same
      exact .inl ((squeeze_ended positive same).trans emptyB.symm)
    have shorter : (a.drop w).length < n := size ▸ drop_shorter positive emptyA
    by_cases repeatsA : previous.take (a.take w).length = a.take w
    · by_cases repeatsB : previous.take (b.take w).length = b.take w
      · rw [squeeze_repeats positive emptyA repeatsA, squeeze_repeats positive emptyB repeatsB] at same
        exact repeats_inj width emptyA emptyB repeatsA repeatsB
          (ih _ shorter width (List.append_cancel_left same) rfl)
      · rw [squeeze_differs positive emptyB repeatsB] at same
        exact absurd rfl (squeeze_repeats_head positive emptyA repeatsA same)
    · rw [squeeze_differs positive emptyA repeatsA] at same
      by_cases repeatsB : previous.take (b.take w).length = b.take w
      · exact absurd rfl (squeeze_repeats_head positive emptyB repeatsB same.symm)
      · rw [squeeze_differs positive emptyB repeatsB] at same
        obtain ⟨line, rest⟩ := List.cons.inj same
        exact (squeeze_line_inj (fun line' width' same' => ih _ shorter width' same' rfl)
          (Squeezed.line.inj line).2 rest).imp_right fun clipped => clipped.behind ⟨1, by omega⟩

/-- Lists that are clipped apart have one listing. -/
theorem squeeze_clipped {offset : Nat} {previous a b : List α} {skip : Bool} (width : previous.length = w)
    (clipped : ClippedApart w (previous ++ a) (previous ++ b)) :
    squeeze w offset previous skip a = squeeze w offset previous skip b := by
  induction size : a.length using Nat.strong_induction_on generalizing offset previous a b skip with
  | _ n ih =>
    have longer := clipped.longer
    rw [List.length_append, List.length_append, width] at longer
    have someA : a ≠ [] := List.length_pos_iff.mp (by omega)
    have someB : b ≠ [] := List.length_pos_iff.mp (by omega)
    rcases clipped.step width with ⟨k, m, kept, kept', rfl, rfl⟩ | clipped
    · have repeats : ∀ k, previous.take ((previous.take k).take w).length = (previous.take k).take w := by
        intro k
        rw [List.take_take, List.length_take, width, ← width, List.take_eq_take_iff]
        omega
      have nothing : ∀ k, (previous.take k).drop w = [] := by
        intro k
        apply List.drop_eq_nil_of_le
        rw [List.length_take]
        omega
      rw [squeeze_repeats positive someA (repeats k), squeeze_repeats positive someB (repeats m), nothing, nothing]
    · obtain ⟨same, whole⟩ := clipped.line
      have shorter : (a.drop w).length < n := size ▸ drop_shorter positive someA
      have behind : ClippedApart w (a.take w ++ a.drop w) (a.take w ++ b.drop w) := by
        rw [List.take_append_drop, same, List.take_append_drop]
        exact clipped
      by_cases repeats : previous.take (a.take w).length = a.take w
      · have taken : a.take w = previous := by rw [← repeats, whole, ← width, List.take_length]
        rw [taken] at behind
        rw [squeeze_repeats positive someA repeats, squeeze_repeats positive someB (same ▸ repeats),
          ih _ shorter width behind rfl]
      · rw [squeeze_differs positive someA repeats, squeeze_differs positive someB (same ▸ repeats), ← same,
          ih _ shorter whole behind rfl]

theorem squeezed_eq_iff (x y : List α) : squeezed w x = squeezed w y ↔ x = y ∨ ClippedApart w x y := by
  refine ⟨fun same => ?_, fun known => known.elim (congrArg _) fun clipped => ?_⟩
  · unfold squeezed at same
    by_cases emptyX : x = []
    · rw [if_pos emptyX] at same
      by_cases emptyY : y = []
      · exact .inl (emptyX.trans emptyY.symm)
      · rw [if_neg emptyY] at same
        cases (List.cons.inj same).1
    · rw [if_neg emptyX] at same
      by_cases emptyY : y = []
      · rw [if_pos emptyY] at same
        cases (List.cons.inj same).1
      · rw [if_neg emptyY] at same
        obtain ⟨line, rest⟩ := List.cons.inj same
        exact squeeze_line_inj (fun line width => squeeze_inj positive width) (Squeezed.line.inj line).2 rest
  · have longer := clipped.longer
    obtain ⟨same, whole⟩ := clipped.line
    rw [squeezed, squeezed, if_neg (List.length_pos_iff.mp (by omega)), if_neg (List.length_pos_iff.mp (by omega)), ← same]
    congr 1
    apply squeeze_clipped positive whole
    rw [List.take_append_drop, same, List.take_append_drop]
    exact clipped

end Unique

end Storage
