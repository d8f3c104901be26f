import Mathlib.Data.List.Range
import Mathlib.Data.List.TakeWhile
import Mathlib.Tactic.Ring

namespace Storage

def nextIndex (p : Nat → Bool) (stop start : Nat) : Option Nat :=
  (List.range' start (stop - start)).find? p

theorem nextIndex_some {p : Nat → Bool} {stop start i : Nat} (found : nextIndex p stop start = some i) :
    start ≤ i ∧ i < stop ∧ p i = true ∧ ∀ j, start ≤ j → j < i → p j = false := by
  rw [nextIndex, List.find?_range'_eq_some] at found
  obtain ⟨holds, member, before⟩ := found
  rw [List.mem_range'_1] at member
  exact ⟨member.1, by omega, holds, fun j lower upper => by simpa using before j lower upper⟩

theorem nextIndex_none {p : Nat → Bool} {stop start : Nat} (missing : nextIndex p stop start = none)
    {j : Nat} (lower : start ≤ j) (upper : j < stop) : p j = false := by
  rw [nextIndex, List.find?_range'_eq_none] at missing
  simpa using missing j lower (by omega)

theorem nextIndex_eq_some {p : Nat → Bool} {stop start i : Nat} (lower : start ≤ i) (upper : i < stop)
    (holds : p i = true) (before : ∀ j, start ≤ j → j < i → p j = false) :
    nextIndex p stop start = some i := by
  rw [nextIndex, List.find?_range'_eq_some]
  refine ⟨holds, by rw [List.mem_range'_1]; omega, ?_⟩
  intro j lower upper
  simp [before j lower upper]

theorem nextIndex_eq_none {p : Nat → Bool} {stop start : Nat}
    (missing : ∀ j, start ≤ j → j < stop → p j = false) : nextIndex p stop start = none := by
  rw [nextIndex, List.find?_range'_eq_none]
  intro j lower upper
  simp [missing j lower (by omega)]

theorem nextIndex_skip {p : Nat → Bool} {stop start mid : Nat} (later : start ≤ mid)
    (missing : ∀ j, start ≤ j → j < mid → p j = false) :
    nextIndex p stop start = nextIndex p stop mid := by
  cases found : nextIndex p stop mid with
  | none =>
    apply nextIndex_eq_none
    intro j lower upper
    by_cases before : j < mid
    · exact missing j lower before
    · exact nextIndex_none found (by omega) upper
  | some i =>
    obtain ⟨lower, upper, holds, before⟩ := nextIndex_some found
    apply nextIndex_eq_some (by omega) upper holds
    intro j first last
    by_cases skipped : j < mid
    · exact missing j first skipped
    · exact before j (by omega) last

theorem nextIndex_congr {p q : Nat → Bool} {stop start : Nat} (same : ∀ j, start ≤ j → j < stop → p j = q j) :
    nextIndex p stop start = nextIndex q stop start := by
  cases found : nextIndex q stop start with
  | none =>
    apply nextIndex_eq_none
    intro j lower upper
    rw [same j lower upper]
    exact nextIndex_none found lower upper
  | some i =>
    obtain ⟨lower, upper, holds, before⟩ := nextIndex_some found
    apply nextIndex_eq_some lower upper
    · rw [same i lower upper]
      exact holds
    · intro j first last
      rw [same j first (by omega)]
      exact before j first last

/-- With every index above the limit held to be like the limit itself, nothing new is found above it. -/
theorem nextIndex_capped {p : Nat → Bool} {stop start limit : Nat} (early : start ≤ limit) :
    nextIndex (fun k => p (min k limit)) stop start = (nextIndex p stop start).filter (· ≤ limit) := by
  cases found : nextIndex p stop start with
  | none =>
    apply nextIndex_eq_none
    intro j lower upper
    exact nextIndex_none found (by omega) (by omega)
  | some i =>
    obtain ⟨lower, upper, holds, before⟩ := nextIndex_some found
    by_cases small : i ≤ limit
    · rw [Option.filter_some_pos (by simpa using small)]
      apply nextIndex_eq_some lower upper
      · rw [Nat.min_eq_left small]
        exact holds
      · intro j first last
        rw [Nat.min_eq_left (by omega)]
        exact before j first last
    · rw [Option.filter_some_neg (by simpa using small)]
      apply nextIndex_eq_none
      intro j first last
      exact before _ (by omega) (by omega)

/-- A block of consecutive indices on which a predicate is constant. -/
structure Run where
  start : Nat
  len : Nat
  set : Bool
deriving DecidableEq, Repr

def Run.stop (r : Run) : Nat := r.start + r.len

/-- `runs` cuts `[lo, stop)` into its maximal constant blocks, in increasing order. -/
def Tiles (p : Nat → Bool) (stop : Nat) : Nat → List Run → Prop
  | lo, [] => lo = stop
  | lo, r :: rest => r.start = lo ∧ 0 < r.len ∧ r.stop ≤ stop ∧
      (∀ i, lo ≤ i → i < r.stop → p i = r.set) ∧ (r.stop < stop → p r.stop ≠ r.set) ∧
      Tiles p stop r.stop rest

namespace Tiles

variable {p : Nat → Bool} {stop lo : Nat} {runs : List Run}

theorem le (tiles : Tiles p stop lo runs) : lo ≤ stop := by
  cases runs with
  | nil => exact Nat.le_of_eq tiles
  | cons r rest =>
    obtain ⟨first, _, bound, _⟩ := tiles
    unfold Run.stop at bound
    omega

theorem sum_len (tiles : Tiles p stop lo runs) : lo + (runs.map Run.len).sum = stop := by
  induction runs generalizing lo with
  | nil => exact tiles
  | cons r rest ih =>
    obtain ⟨first, _, _, _, _, tail⟩ := tiles
    have total := ih tail
    simp only [Run.stop, List.map_cons, List.sum_cons] at total ⊢
    omega

theorem length_le (tiles : Tiles p stop lo runs) : lo + runs.length ≤ stop := by
  induction runs generalizing lo with
  | nil => exact Nat.le_of_eq tiles
  | cons r rest ih =>
    obtain ⟨first, positive, _, _, _, tail⟩ := tiles
    have bound := ih tail
    simp only [Run.stop, List.length_cons] at bound ⊢
    omega

theorem mem_bounds (tiles : Tiles p stop lo runs) {r : Run} (member : r ∈ runs) :
    lo ≤ r.start ∧ 0 < r.len ∧ r.stop ≤ stop := by
  induction runs generalizing lo with
  | nil => simp at member
  | cons s rest ih =>
    obtain ⟨first, positive, bound, _, _, tail⟩ := tiles
    rcases List.mem_cons.mp member with rfl | member
    · exact ⟨Nat.le_of_eq first.symm, positive, bound⟩
    · have inner := ih tail member
      unfold Run.stop at inner
      exact ⟨by omega, inner.2⟩

/-- Only the last run reaches beyond the indices that are set. -/
theorem length_le_limit (tiles : Tiles p stop lo runs) (limit : Nat)
    (below : ∀ k, k < stop → p k = true → k < limit) : runs.length ≤ (limit - lo) + 1 := by
  induction runs generalizing lo with
  | nil => simp
  | cons r rest ih =>
    obtain ⟨first, positive, bound, value, right, tail⟩ := tiles
    have more := ih tail
    by_cases early : r.stop ≤ limit
    · unfold Run.stop at early more
      rw [List.length_cons]
      omega
    · have clear : r.set = false := by
        by_contra set
        have last := below (r.stop - 1) (by omega) (by
          rw [value _ (by unfold Run.stop; omega) (by omega)]
          simpa using set)
        omega
      cases rest with
      | nil => simp
      | cons s others =>
        have following := tail.mem_bounds (List.mem_cons_self ..)
        have inner : r.stop < stop := by
          unfold Run.stop at following ⊢
          omega
        have set := below r.stop inner (by simpa [clear] using right inner)
        omega

theorem mem_value (tiles : Tiles p stop lo runs) {r : Run} (member : r ∈ runs)
    {i : Nat} (lower : r.start ≤ i) (upper : i < r.stop) : p i = r.set := by
  induction runs generalizing lo with
  | nil => simp at member
  | cons s rest ih =>
    obtain ⟨first, _, _, value, _, tail⟩ := tiles
    rcases List.mem_cons.mp member with rfl | member
    · exact value i (by omega) upper
    · exact ih tail member

theorem cover (tiles : Tiles p stop lo runs) {i : Nat} (lower : lo ≤ i) (upper : i < stop) :
    ∃ r ∈ runs, r.start ≤ i ∧ i < r.stop := by
  induction runs generalizing lo with
  | nil =>
    have empty : lo = stop := tiles
    omega
  | cons r rest ih =>
    obtain ⟨first, _, _, _, _, tail⟩ := tiles
    by_cases inside : i < r.stop
    · exact ⟨r, by simp, by omega, inside⟩
    · obtain ⟨s, member, bounds⟩ := ih tail (by omega)
      exact ⟨s, List.mem_cons_of_mem _ member, bounds⟩

theorem split {before after : List Run} {r : Run} (tiles : Tiles p stop lo (before ++ r :: after)) :
    lo + (before.map Run.len).sum = r.start ∧ Tiles p stop r.start (r :: after) := by
  induction before generalizing lo with
  | nil =>
    obtain ⟨first, tail⟩ := tiles
    simp only [List.map_nil, List.sum_nil, Nat.add_zero]
    exact ⟨first.symm, rfl, by rw [first]; exact tail⟩
  | cons s rest ih =>
    obtain ⟨first, _, _, _, _, tail⟩ := tiles
    obtain ⟨total, more⟩ := ih tail
    refine ⟨?_, more⟩
    rw [← total, Run.stop, List.map_cons, List.sum_cons]
    omega

theorem start_eq (tiles : Tiles p stop lo runs) {n : Nat} {r : Run} (found : runs[n]? = some r) :
    r.start = lo + ((runs.take n).map Run.len).sum := by
  obtain ⟨short, value⟩ := List.getElem?_eq_some_iff.mp found
  have cut : runs.take n ++ r :: runs.drop (n + 1) = runs := by
    rw [← value, ← List.drop_eq_getElem_cons, List.take_append_drop]
  have whole : Tiles p stop lo (runs.take n ++ r :: runs.drop (n + 1)) := by
    rw [cut]
    exact tiles
  exact whole.split.1.symm

/-- The maximal blocks of a predicate are determined by it. -/
theorem unique {other : List Run} (tiles : Tiles p stop lo runs) (again : Tiles p stop lo other) :
    runs = other := by
  induction runs generalizing lo other with
  | nil =>
    have done : lo = stop := tiles
    cases other with
    | nil => rfl
    | cons s more =>
      have bounds := again.mem_bounds (List.mem_cons_self ..)
      unfold Run.stop at bounds
      omega
  | cons r rest ih =>
    cases other with
    | nil =>
      have done : lo = stop := again
      have bounds := tiles.mem_bounds (List.mem_cons_self ..)
      unfold Run.stop at bounds
      omega
    | cons s more =>
      obtain ⟨first, positive, bound, value, right, tail⟩ := tiles
      obtain ⟨first', positive', bound', value', right', tail'⟩ := again
      have set : r.set = s.set := by
        rw [← value lo (Nat.le_refl _) (by unfold Run.stop; omega),
          value' lo (Nat.le_refl _) (by unfold Run.stop; omega)]
      have stop : r.stop = s.stop := by
        rcases Nat.lt_trichotomy r.stop s.stop with less | same | more
        · have here := right (by omega)
          rw [set] at here
          exact absurd (value' _ (by unfold Run.stop; omega) less) here
        · exact same
        · have here := right' (by omega)
          rw [← set] at here
          exact absurd (value _ (by unfold Run.stop; omega) more) here
      have head : r = s := by
        cases r
        cases s
        simp only [Run.stop] at *
        simp only [Run.mk.injEq]
        exact ⟨by omega, by omega, set⟩
      rw [head, ih tail (by rw [stop]; exact tail')]

theorem mem_right (tiles : Tiles p stop lo runs) {r : Run} (member : r ∈ runs)
    (inner : r.stop < stop) : p r.stop ≠ r.set := by
  induction runs generalizing lo with
  | nil => simp at member
  | cons s rest ih =>
    obtain ⟨_, _, _, _, right, tail⟩ := tiles
    rcases List.mem_cons.mp member with rfl | member
    · exact right inner
    · exact ih tail member

end Tiles

end Storage
