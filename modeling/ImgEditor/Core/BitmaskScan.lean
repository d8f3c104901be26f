import ImgEditor.Core.Bitmask

namespace ImgEditor

open Storage

namespace Bitmask

/-- The answer is the least index in range, from `start` on, at which `bitmask_get` gives `value`; or -1. -/
def LeastWith (b : Bitmask) (value : Int) (start : Nat) (answer : Int) : Prop :=
  (∃ k : Nat, answer = k ∧ start ≤ k ∧ k < b.totalBits ∧ b.get k = value ∧ ∀ j, start ≤ j → j < k → b.get j ≠ value) ∨
    answer = -1 ∧ ∀ j, start ≤ j → j < b.totalBits → b.get j ≠ value

/-- A maximal run of set bits: its first index and its length. -/
structure MaximalRun (b : Bitmask) (run : Nat × Nat) : Prop where
  positive : 0 < run.2
  inside : run.1 + run.2 ≤ b.totalBits
  ones : ∀ k, run.1 ≤ k → k < run.1 + run.2 → b.get k = 1
  left : 0 < run.1 → b.get (run.1 - 1) = 0
  right : run.1 + run.2 < b.totalBits → b.get (run.1 + run.2) = 0

/-- The searches are exact, and the two loops come to every set bit and to every maximal run once, in order. -/
structure ScansRight (b : Bitmask) : Prop where
  one : ∀ start, b.LeastWith 1 start (b.nextOne start)
  zero : ∀ start, b.LeastWith 0 start (b.nextZero start)
  each : ∀ fuel, b.totalBits < fuel →
    b.foreachFrom fuel (b.nextOne 0) = (List.range b.totalBits).filter fun k => b.get k = 1
  runs : ∃ runs, b.foreachContinue = some runs ∧ runs.Pairwise (fun r s => r.1 + r.2 < s.1) ∧
    ∀ run, run ∈ runs ↔ b.MaximalRun run

section Get

variable (b : Bitmask)

theorem get_eq {k : Nat} (inside : k < b.totalBits) : b.get k = if b.bit k then 1 else 0 := by
  have single := and_single_bit (b.buffer.getD (k / 8) 0#8) (7 - k % 8) (by omega)
  rw [Bitmask.get, if_neg (Nat.not_le.mpr inside)]
  by_cases set : b.bit k = true
  · rw [if_pos set, if_pos (single.mpr set)]
  · rw [if_neg set, if_neg fun other => set (single.mp other)]

theorem get_one_iff {k : Nat} (inside : k < b.totalBits) : b.get k = 1 ↔ b.bit k = true := by
  rw [b.get_eq inside]
  split
  · rename_i set
    exact iff_of_true rfl set
  · rename_i clear
    exact iff_of_false (by decide) clear

theorem get_zero_iff {k : Nat} (inside : k < b.totalBits) : b.get k = 0 ↔ b.bit k = false := by
  rw [b.get_eq inside]
  split
  · rename_i set
    exact iff_of_false (by decide) (by simp [set])
  · rename_i clear
    exact iff_of_true rfl (by simpa using clear)

variable (small : b.totalBits < 2^31)

include small

theorem intRange_of_lt : b.IntRange := fun k inside _ => by omega

/-- A search for the bits of one kind is exact, whatever the padding bits are. -/
theorem leastWith_search {value : Int} {p : Nat → Bool} (means : ∀ k < b.totalBits, b.get k = value ↔ p k = true)
    (start : Nat) : b.LeastWith value start
      (match nextIndex p b.totalBits start with
      | none => -1
      | some k => toInt32 k) := by
  cases found : nextIndex p b.totalBits start with
  | none =>
    refine .inr ⟨rfl, ?_⟩
    intro j lower upper same
    have set := (means j upper).mp same
    rw [nextIndex_none found lower upper] at set
    exact absurd set (by decide)
  | some k =>
    obtain ⟨lower, upper, holds, before⟩ := nextIndex_some found
    refine .inl ⟨k, toInt32_of_lt (by omega), lower, upper, (means k upper).mpr holds, ?_⟩
    intro j first last same
    have set := (means j (by omega)).mp same
    rw [before j first last] at set
    exact absurd set (by decide)

end Get

section Runs

variable {b : Bitmask}

theorem maximalRun_iff (b : Bitmask) (run : Nat × Nat) : b.MaximalRun run ↔
    0 < run.2 ∧ run.1 + run.2 ≤ b.totalBits ∧ (∀ k, run.1 ≤ k → k < run.1 + run.2 → b.bit k = true) ∧
      (0 < run.1 → b.bit (run.1 - 1) = false) ∧ (run.1 + run.2 < b.totalBits → b.bit (run.1 + run.2) = false) := by
  constructor
  · intro maximal
    have positive := maximal.positive
    have inside := maximal.inside
    refine ⟨positive, inside, ?_, ?_, ?_⟩
    · intro k lower upper
      exact (b.get_one_iff (by omega)).mp (maximal.ones k lower upper)
    · intro later
      exact (b.get_zero_iff (by omega)).mp (maximal.left later)
    · intro more
      exact (b.get_zero_iff more).mp (maximal.right more)
  · rintro ⟨positive, inside, ones, left, right⟩
    refine ⟨positive, inside, ?_, ?_, ?_⟩
    · intro k lower upper
      exact (b.get_one_iff (by omega)).mpr (ones k lower upper)
    · intro later
      exact (b.get_zero_iff (by omega)).mpr (left later)
    · intro more
      exact (b.get_zero_iff more).mpr (right more)

def AtRunEnd (b : Bitmask) (lo : Nat) : Prop := 0 < lo → lo < b.totalBits → b.bit lo = false

theorem maximalRun_first {lo k : Nat} (edge : b.AtRunEnd lo) (found : nextIndex b.bit b.totalBits lo = some k) :
    b.MaximalRun (k, b.runEnd k - k) := by
  obtain ⟨lower, inside, set, before⟩ := nextIndex_some found
  obtain ⟨after, within, ones, right⟩ := b.runEnd_spec inside set
  have whole : k + (b.runEnd k - k) = b.runEnd k := by omega
  rw [maximalRun_iff]
  dsimp only
  rw [whole]
  refine ⟨by omega, within, ones, ?_, right⟩
  intro later
  rcases Nat.lt_or_eq_of_le lower with skipped | rfl
  · exact before (k - 1) (by omega) (by omega)
  · rw [edge later inside] at set
    exact absurd set (by decide)

/-- Any other run stands behind the end of that one. -/
theorem maximalRun_later {lo k : Nat} (found : nextIndex b.bit b.totalBits lo = some k) {run : Nat × Nat}
    (maximal : b.MaximalRun run) (from_ : lo ≤ run.1) : run = (k, b.runEnd k - k) ∨ b.runEnd k < run.1 := by
  obtain ⟨lower, inside, set, before⟩ := nextIndex_some found
  obtain ⟨after, within, ones, right⟩ := b.runEnd_spec inside set
  obtain ⟨positive, bound, filled, left, ends⟩ := (b.maximalRun_iff run).mp maximal
  have start : b.bit run.1 = true := filled run.1 (Nat.le_refl _) (by omega)
  rcases Nat.lt_trichotomy run.1 k with early | same | late
  · rw [before run.1 from_ early] at start
    exact absurd start (by decide)
  · left
    -- both ends are the first clear index behind the start
    have length : run.1 + run.2 = b.runEnd k := by
      rcases Nat.lt_trichotomy (run.1 + run.2) (b.runEnd k) with short | equal | long
      · have clear := ends (by omega)
        rw [ones _ (by omega) short] at clear
        exact absurd clear (by decide)
      · exact equal
      · have clear := right (by omega)
        rw [filled _ (by omega) long] at clear
        exact absurd clear (by decide)
    exact Prod.ext same (by omega)
  · right
    by_contra overlap
    rcases Nat.lt_or_eq_of_le (Nat.le_of_not_lt overlap) with inner | touching
    · have clear := left (by omega)
      rw [ones _ (by omega) (by omega)] at clear
      exact absurd clear (by decide)
    · have clear := right (by omega)
      rw [← touching, start] at clear
      exact absurd clear (by decide)

theorem continueRuns_maximal (range : b.IntRange) {fuel lo : Nat} {it : ContinueIterator} (within : lo ≤ b.totalBits)
    (enough : b.totalBits - lo < fuel) (here : b.IteratorAt it lo) (edge : b.AtRunEnd lo) :
    ∃ runs, b.continueRuns fuel it = some runs ∧ runs.Pairwise (fun r s => r.1 + r.2 < s.1) ∧
      ∀ run, run ∈ runs ↔ b.MaximalRun run ∧ lo ≤ run.1 := by
  induction fuel generalizing it lo with
  | zero => omega
  | succ fuel ih =>
    unfold continueRuns
    cases found : nextIndex b.bit b.totalBits lo with
    | none =>
      simp only [IteratorAt, found] at here
      rw [if_pos here]
      refine ⟨[], rfl, .nil, ?_⟩
      intro run
      refine iff_of_false List.not_mem_nil ?_
      rintro ⟨maximal, from_⟩
      obtain ⟨positive, bound, filled, _⟩ := (b.maximalRun_iff run).mp maximal
      have start := filled run.1 (Nat.le_refl _) (by omega)
      rw [nextIndex_none found from_ (by omega)] at start
      exact absurd start (by decide)
    | some k =>
      have next := b.continueNext_at it range found here
      have first := maximalRun_first edge found
      obtain ⟨lower, inside, set, _⟩ := nextIndex_some found
      obtain ⟨after, ends, value, right⟩ := b.runEnd_spec inside set
      have last := range (b.runEnd k - 1) (by omega) (value _ (by omega) (by omega))
      simp only [IteratorAt, found] at here
      obtain ⟨start, count, _⟩ := here
      rw [if_neg (by omega), start, count, toSizeT_natCast (by omega), toSizeT_natCast (by omega)]
      obtain ⟨runs, rest, order, members⟩ := ih ends (by omega) next fun _ more => right more
      rw [rest]
      refine ⟨_, rfl, ?_, ?_⟩
      · refine order.cons ?_
        intro run member
        obtain ⟨maximal, behind⟩ := (members run).mp member
        rcases maximalRun_later found maximal (by omega) with rfl | later
        · exact absurd behind (by simp only; omega)
        · show k + (b.runEnd k - k) < run.1
          omega
      · intro run
        rw [List.mem_cons, members]
        constructor
        · rintro (rfl | ⟨maximal, behind⟩)
          · exact ⟨first, lower⟩
          · exact ⟨maximal, by omega⟩
        · rintro ⟨maximal, from_⟩
          rcases maximalRun_later found maximal from_ with same | later
          · exact .inl same
          · exact .inr ⟨maximal, Nat.le_of_lt later⟩

end Runs

/-- With fewer than 2^31 bits the scans are right; the padding bits do not count. -/
theorem scans_right (b : Bitmask) (small : b.totalBits < 2^31) : b.ScansRight := by
  have range := b.intRange_of_lt small
  constructor
  case one =>
    intro start
    rw [b.nextOne_spec]
    exact b.leastWith_search small (fun k inside => b.get_one_iff inside) start
  case zero =>
    intro start
    rw [b.nextZero_spec]
    refine b.leastWith_search small (fun k inside => ?_) start
    rw [b.get_zero_iff inside, Bool.not_eq_true']
  case each =>
    intro fuel enough
    rw [foreachFrom_eq b range (by omega), Nat.sub_zero, ← List.range_eq_range']
    apply List.filter_congr
    intro k member
    rw [Bool.eq_iff_iff, decide_eq_true_eq]
    exact (b.get_one_iff (List.mem_range.mp member)).symm
  case runs =>
    obtain ⟨runs, found, order, members⟩ := continueRuns_maximal range (Nat.zero_le _) (Nat.lt_succ_self _)
      (b.continueInit_at range) fun later _ => absurd later (by decide)
    refine ⟨runs, found, order, ?_⟩
    intro run
    rw [members]
    exact ⟨And.left, fun maximal => ⟨maximal, Nat.zero_le _⟩⟩

/-- The bits 1 to 3 and 9 of ten, and padding bits that are set. -/
def paddedBitmask : Bitmask := ⟨10, [0x70#8, 0x7f#8], rfl⟩

theorem scans_right_padded : paddedBitmask.ScansRight := scans_right paddedBitmask (by decide)

end Bitmask

end ImgEditor
