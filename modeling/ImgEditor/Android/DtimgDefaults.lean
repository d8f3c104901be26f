import ImgEditor.Android.Dtimg

namespace ImgEditor

open Storage

/-- The loop of `dtimg_get_default_custom` that fills its array: `none` for an access outside the array, and a
missing array for the return of zero. -/
def dtimgReadCustom (which : Fin 4) : List DtTableEntry → List (BitVec 32) → Option (Option (List (BitVec 32)))
  | [], custom => some (some custom)
  | entry :: rest, custom =>
    if which.val < custom.length then
      if entry.custom which = 0#32 then some none else dtimgReadCustom which rest (custom.set which.val (entry.custom which))
    else none

/-- The inner loop of the count. -/
def dtimgCountInside (custom : List (BitVec 32)) (i maxCount : Nat) : Nat → Nat → Nat → BitVec 32 → Option (BitVec 32)
  | 0, _, _, max => some max
  | fuel + 1, j, count, max =>
    if j < count then
      match custom[i]?, custom[j]? with
      | some left, some right =>
        if left = right then dtimgCountInside custom i maxCount fuel (j + 1) (count + 1) (if count + 1 > maxCount then left else max)
        else dtimgCountInside custom i maxCount fuel (j + 1) count max
      | _, _ => none
    else some max

/-- `dtimg_get_default_custom` with the accesses of its array: `none` when one is outside the array. -/
def dtimgDefaultCustom (entries : List DtTableEntry) (which : Fin 4) : Option (BitVec 32) :=
  match dtimgReadCustom which entries (List.replicate entries.length 0#32) with
  | none => none
  | some none => some 0#32
  | some (some custom) =>
    match custom[0]? with
    | none => none
    | some max =>
      (List.range entries.length).foldlM (fun max i => dtimgCountInside custom i 0 entries.length (i + 1) 1 max) max

def customWords (entries : List DtTableEntry) (which : Fin 4) : List (BitVec 32) := entries.map (·.custom which)

/-- Zero if it is among the words, and else a word that no other one outnumbers. -/
def DefaultOf (words : List (BitVec 32)) (value : BitVec 32) : Prop :=
  if 0#32 ∈ words then value = 0#32 else ∀ word, words.count word ≤ words.count value

def DtimgDefaultRight (entries : List DtTableEntry) (which : Fin 4) : Prop :=
  ∃ value, dtimgDefaultCustom entries which = some value ∧ DefaultOf (customWords entries which) value

/-- The array has an element for the index of the custom word, and a word is zero, or the index is zero and no word
outnumbers the last one. -/
def DtimgDefaultFits (entries : List DtTableEntry) (which : Fin 4) : Prop :=
  which.val < entries.length ∧
    (0#32 ∈ customWords entries which ∨ which = 0 ∧ ∀ word, (customWords entries which).count word ≤
      (customWords entries which).count ((customWords entries which).getLastD 0#32))

section Defaults

variable {which : Fin 4}

@[simp] theorem customWords_getLastD (entry : DtTableEntry) (entries : List DtTableEntry) (value : BitVec 32) :
    (customWords (entry :: entries) which).getLastD value = (customWords entries which).getLastD (entry.custom which) := by
  rw [customWords, List.map_cons, List.getLastD_cons]
  rfl

theorem dtimgReadCustom_zero {entries : List DtTableEntry} {custom : List (BitVec 32)} (inside : which.val < custom.length)
    (zero : 0#32 ∈ customWords entries which) : dtimgReadCustom which entries custom = some none := by
  induction entries generalizing custom with
  | nil => cases zero
  | cons entry entries ih =>
    rw [dtimgReadCustom, if_pos inside]
    by_cases here : entry.custom which = 0#32
    · rw [if_pos here]
    · rw [if_neg here]
      apply ih
      · rw [List.length_set]
        exact inside
      · exact (List.mem_cons.mp zero).resolve_left (Ne.symm here)

theorem dtimgReadCustom_last {entries : List DtTableEntry} {custom : List (BitVec 32)} (inside : which.val < custom.length)
    (nonzero : 0#32 ∉ customWords entries which) : dtimgReadCustom which entries custom =
      some (some (custom.set which.val ((customWords entries which).getLastD (custom.getD which.val 0#32)))) := by
  induction entries generalizing custom with
  | nil => simp [dtimgReadCustom, customWords, inside]
  | cons entry entries ih =>
    have some_ : ¬ entry.custom which = 0#32 := fun zero => nonzero (List.mem_cons.mpr (.inl zero.symm))
    have rest : 0#32 ∉ customWords entries which := fun zero => nonzero (List.mem_cons_of_mem _ zero)
    have written : (custom.set which.val (entry.custom which)).getD which.val 0#32 = entry.custom which := by
      simp [inside]
    rw [dtimgReadCustom, if_pos inside, if_neg some_, ih (by rwa [List.length_set]) rest, written, List.set_set,
      customWords_getLastD]

theorem dtimgReadCustom_outside {entry : DtTableEntry} {entries : List DtTableEntry} {custom : List (BitVec 32)}
    (outside : custom.length ≤ which.val) : dtimgReadCustom which (entry :: entries) custom = none := by
  rw [dtimgReadCustom, if_neg (by omega)]

/-- The inner loop never runs, as its counter starts behind the count. -/
theorem dtimgCountInside_start (custom : List (BitVec 32)) (i maxCount fuel : Nat) (max : BitVec 32) :
    dtimgCountInside custom i maxCount fuel (i + 1) 1 max = some max := by
  cases fuel with
  | zero => rfl
  | succ fuel => rw [dtimgCountInside, if_neg (by omega)]

theorem dtimgCountSame_start (custom : Nat → BitVec 32) (i maxCount fuel : Nat) (max : BitVec 32) :
    dtimgCountSame custom i maxCount fuel (i + 1) 1 max = max := by
  cases fuel with
  | zero => rfl
  | succ fuel => rw [dtimgCountSame, if_neg (by omega)]

theorem dtimgDefaultCustom_eq (entries : List DtTableEntry) (which : Fin 4) : dtimgDefaultCustom entries which =
    if which.val < entries.length then
      some (if 0#32 ∈ customWords entries which ∨ which ≠ 0 then 0#32 else (customWords entries which).getLastD 0#32)
    else none := by
  have unchanged (custom : List (BitVec 32)) (max : BitVec 32) (indices : List Nat) :
      indices.foldlM (fun max i => dtimgCountInside custom i 0 entries.length (i + 1) 1 max) max = some max := by
    induction indices with
    | nil => rfl
    | cons i indices ih =>
      rw [List.foldlM_cons, dtimgCountInside_start]
      exact ih
  rw [dtimgDefaultCustom]
  by_cases inside : which.val < entries.length
  · have room : which.val < (List.replicate entries.length 0#32).length := by simpa using inside
    rw [if_pos inside]
    by_cases zero : 0#32 ∈ customWords entries which
    · rw [dtimgReadCustom_zero room zero, if_pos (.inl zero)]
    · have empty : (List.replicate entries.length 0#32).getD which.val 0#32 = 0#32 := by simp
      rw [dtimgReadCustom_last room zero, empty]
      by_cases first : which = 0
      · subst first
        have filled : 0 < entries.length := inside
        simp [unchanged, zero, filled]
      · have other : which.val ≠ 0 := fun same => first (Fin.ext same)
        have filled : 0 < entries.length := by omega
        simp [unchanged, first, other, filled]
  · rw [if_neg inside]
    cases entries with
    | nil => rfl
    | cons entry entries => rw [dtimgReadCustom_outside (by simpa using inside)]

theorem dtimgHeap_getD (entries : List DtTableEntry) (which : Fin 4) (heap : Nat → BitVec 32) (c : Nat) :
    entries.foldl (fun heap entry cell => if cell = which.val then entry.custom which else heap cell) heap c =
      if c = which.val then (customWords entries which).getLastD (heap c) else heap c := by
  induction entries generalizing heap with
  | nil => simp [customWords]
  | cons entry entries ih =>
    rw [List.foldl_cons, ih]
    by_cases here : c = which.val
    · rw [if_pos here, if_pos here, if_pos here, customWords_getLastD]
    · rw [if_neg here, if_neg here, if_neg here]

/-- The result is the one without the accesses, where these are inside the array. -/
theorem dtimgDefaultCustom_inside {entries : List DtTableEntry} {value : BitVec 32}
    (inside : dtimgDefaultCustom entries which = some value) : dtimgGetDefaultCustom entries which = value := by
  rw [dtimgDefaultCustom_eq] at inside
  split at inside
  · have zeros : (∃ entry ∈ entries, entry.custom which = 0) ↔ 0#32 ∈ customWords entries which := by
      simp [customWords]
    have unchanged (custom : Nat → BitVec 32) (max : BitVec 32) (indices : List Nat) :
        indices.foldl (fun max i => dtimgCountSame custom i 0 entries.length (i + 1) 1 max) max = max := by
      induction indices with
      | nil => rfl
      | cons i indices ih =>
        rw [List.foldl_cons, dtimgCountSame_start]
        exact ih
    rw [← Option.some.inj inside, dtimgGetDefaultCustom]
    by_cases zero : 0#32 ∈ customWords entries which
    · rw [if_pos (zeros.mpr zero), if_pos (.inl zero)]
      rfl
    · rw [if_neg (zeros.not.mpr zero), unchanged, dtimgHeap_getD]
      by_cases first : which = 0
      · subst first
        simp [zero]
      · have other : 0 ≠ which.val := fun same => first (Fin.ext same.symm)
        rw [if_neg other, if_pos (.inr first)]
        rfl
  · cases inside

/-- The default is the word it should be, from accesses inside the array, exactly if the table fits. -/
theorem dtimgDefaultCustom_right_iff (entries : List DtTableEntry) (which : Fin 4) :
    DtimgDefaultRight entries which ↔ DtimgDefaultFits entries which := by
  rw [DtimgDefaultRight, DtimgDefaultFits, dtimgDefaultCustom_eq]
  by_cases inside : which.val < entries.length
  · rw [if_pos inside, and_iff_right inside]
    simp only [Option.some.injEq, exists_eq_left', DefaultOf]
    by_cases zero : 0#32 ∈ customWords entries which
    · rw [if_pos zero, if_pos (.inl zero)]
      exact iff_of_true rfl (.inl zero)
    · rw [if_neg zero]
      simp only [zero, false_or]
      by_cases first : which = 0
      · rw [if_neg (not_not.mpr first), and_iff_right first]
      · rw [if_pos first]
        refine iff_of_false (fun most => ?_) fun fits => first fits.1
        obtain ⟨entry, entries, rfl⟩ := List.exists_cons_of_length_pos (Nat.zero_lt_of_lt inside)
        have none := most (entry.custom which)
        rw [List.count_eq_zero.mpr zero, customWords, List.map_cons, List.count_cons_self] at none
        omega
  · rw [if_neg inside]
    exact iff_of_false (fun ⟨_, missing, _⟩ => nomatch missing) fun fits => inside fits.1

/-- Two entries of a table have the word 7 and the last one has another. -/
theorem dtimgDefaultCustom_last : ¬ DtimgDefaultRight
    [⟨0, 0, 0, 0, fun _ => 7⟩, ⟨0, 0, 0, 0, fun _ => 7⟩, ⟨0, 0, 0, 0, fun _ => 9⟩] 0 := by
  intro ⟨value, result, most⟩
  have last : dtimgDefaultCustom [⟨0, 0, 0, 0, fun _ => 7⟩, ⟨0, 0, 0, 0, fun _ => 7⟩, ⟨0, 0, 0, 0, fun _ => 9⟩] 0 =
      some 9 := by decide
  rw [last] at result
  obtain rfl := Option.some.inj result
  rw [DefaultOf, if_neg (by decide)] at most
  exact absurd (most 7) (by decide)

end Defaults

end ImgEditor
