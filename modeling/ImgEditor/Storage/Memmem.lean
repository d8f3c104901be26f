import ImgEditor.Storage.File

namespace Storage

section Memmem

variable {α : Type} [DecidableEq α]

/-- memmem(3): the index of the first occurrence of `needle`. -/
def memmem (hay needle : List α) : Option Nat :=
  if needle.isPrefixOf hay then some 0
  else
    match hay with
    | [] => none
    | _ :: rest => (memmem rest needle).map (· + 1)

theorem memmem_start {hay needle : List α} (start : needle <+: hay) : memmem hay needle = some 0 := by
  unfold memmem
  exact if_pos (List.isPrefixOf_iff_prefix.mpr start)

theorem memmem_nil {needle : List α} (other : ¬ needle <+: []) : memmem [] needle = none := by
  unfold memmem
  exact if_neg fun start => other (List.isPrefixOf_iff_prefix.mp start)

theorem memmem_cons {head : α} {rest needle : List α} (other : ¬ needle <+: head :: rest) :
    memmem (head :: rest) needle = (memmem rest needle).map (· + 1) := by
  rw [memmem]
  exact if_neg fun start => other (List.isPrefixOf_iff_prefix.mp start)

theorem memmem_some {hay needle : List α} {i : Nat} (found : memmem hay needle = some i) :
    needle <+: hay.drop i ∧ ∀ j, j < i → ¬ needle <+: hay.drop j := by
  induction hay generalizing i with
  | nil =>
    by_cases start : needle <+: []
    · obtain rfl := Option.some.inj ((memmem_start start).symm.trans found)
      exact ⟨start, fun j below => absurd below (Nat.not_lt_zero j)⟩
    · rw [memmem_nil start] at found
      cases found
  | cons head rest ih =>
    by_cases start : needle <+: head :: rest
    · obtain rfl := Option.some.inj ((memmem_start start).symm.trans found)
      exact ⟨start, fun j below => absurd below (Nat.not_lt_zero j)⟩
    · rw [memmem_cons start] at found
      obtain ⟨k, later, rfl⟩ := Option.map_eq_some_iff.mp found
      obtain ⟨present, first⟩ := ih later
      refine ⟨present, ?_⟩
      intro j below
      cases j with
      | zero => exact start
      | succ j => exact first j (by omega)

theorem memmem_none {hay needle : List α} (missing : memmem hay needle = none) (i : Nat) :
    ¬ needle <+: hay.drop i := by
  have behind : ¬ needle <+: hay := by
    intro start
    rw [memmem_start start] at missing
    cases missing
  induction hay generalizing i with
  | nil =>
    rw [List.drop_nil]
    exact behind
  | cons head rest ih =>
    cases i with
    | zero => exact behind
    | succ i =>
      rw [memmem_cons behind, Option.map_eq_none_iff] at missing
      apply ih missing
      intro start
      rw [memmem_start start] at missing
      cases missing

end Memmem

namespace File

instance (f : File) (pos : Nat) (bytes : List Byte) : Decidable (f.Holds pos bytes) :=
  inferInstanceAs (Decidable (_ ∧ _))

/-- A window of a file shows an occurrence exactly when the file holds it inside the window. -/
theorem prefix_slice_iff (f : File) {pos count i : Nat} {bytes : List Byte} (nonempty : bytes ≠ [])
    (window : pos + count ≤ f.size) :
    bytes <+: (f.slice pos count).drop i ↔ f.Holds (pos + i) bytes ∧ i + bytes.length ≤ count := by
  have positive := List.length_pos_iff.mpr nonempty
  constructor
  · intro shown
    have fits := shown.length_le
    rw [List.length_drop, slice_length] at fits
    have same := List.prefix_iff_eq_take.mp shown
    rw [f.slice_drop pos count i (by omega), f.slice_take _ _ _ (by omega)] at same
    exact ⟨⟨by omega, same.symm⟩, by omega⟩
  · rintro ⟨stored, fits⟩
    rw [f.slice_drop pos count i (by omega), List.prefix_iff_eq_take, f.slice_take _ _ _ (by omega)]
    exact stored.2.symm

/-- The positions from `low` on whose occurrence of `bytes` ends at `high` at the latest. -/
def occurrences (f : File) (bytes : List Byte) (low high : Nat) : List Nat :=
  (List.range' low (high - low)).filter fun pos => f.Holds pos bytes ∧ pos + bytes.length ≤ high

theorem mem_occurrences (f : File) {bytes : List Byte} (nonempty : bytes ≠ []) (low high pos : Nat) :
    pos ∈ f.occurrences bytes low high ↔
      low ≤ pos ∧ f.Holds pos bytes ∧ pos + bytes.length ≤ high := by
  have positive := List.length_pos_iff.mpr nonempty
  simp only [occurrences, List.mem_filter, List.mem_range'_1, decide_eq_true_eq]
  constructor
  · rintro ⟨⟨above, _⟩, present⟩
    exact ⟨above, present⟩
  · rintro ⟨above, stored, fits⟩
    exact ⟨⟨above, by omega⟩, stored, fits⟩

theorem occurrences_ordered (f : File) (bytes : List Byte) (low high : Nat) :
    (f.occurrences bytes low high).Pairwise (· < ·) :=
  List.Pairwise.filter _ (List.pairwise_lt_range' 1)

theorem occurrences_eq_nil (f : File) {bytes : List Byte} (nonempty : bytes ≠ []) {low high : Nat}
    (missing : ∀ pos, low ≤ pos → pos + bytes.length ≤ high → ¬ f.Holds pos bytes) :
    f.occurrences bytes low high = [] := by
  apply List.eq_nil_iff_forall_not_mem.mpr
  intro pos member
  obtain ⟨above, stored, fits⟩ := (f.mem_occurrences nonempty low high pos).mp member
  exact missing pos above fits stored

/-- The first occurrence is the head of the list, and the search goes on one byte after it. -/
theorem occurrences_cons (f : File) {bytes : List Byte} (nonempty : bytes ≠ []) {low high pos : Nat}
    (above : low ≤ pos) (stored : f.Holds pos bytes) (fits : pos + bytes.length ≤ high)
    (first : ∀ before, low ≤ before → before < pos → ¬ f.Holds before bytes) :
    f.occurrences bytes low high = pos :: f.occurrences bytes (pos + 1) high := by
  have positive := List.length_pos_iff.mpr nonempty
  have parts : List.range' low (high - low) =
      List.range' low (pos - low) ++ (pos :: List.range' (pos + 1) (high - (pos + 1))) := by
    have before : high - low = (pos - low) + (high - pos) := by omega
    have after : high - pos = (high - (pos + 1)) + 1 := by omega
    rw [before, ← List.range'_append_1, Nat.add_sub_cancel' above, after, List.range'_succ]
  unfold occurrences
  rw [parts, List.filter_append, List.filter_cons_of_pos (by simpa using ⟨stored, fits⟩)]
  have skipped : (List.range' low (pos - low)).filter
      (fun pos => decide (f.Holds pos bytes ∧ pos + bytes.length ≤ high)) = [] := by
    apply List.filter_eq_nil_iff.mpr
    intro before member
    obtain ⟨low_le, below⟩ := List.mem_range'_1.mp member
    simp only [decide_eq_true_eq, not_and]
    exact fun held => absurd held (first before low_le (by omega))
  rw [skipped, List.nil_append]

end File

end Storage
