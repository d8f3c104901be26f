import ImgEditor.Core.Bitmask

namespace ImgEditor

open Storage

theorem toInt32_neg {n : Nat} (lower : 2^31 ≤ n) (upper : n < 2^32) : toInt32 n < 0 := by
  unfold toInt32
  rw [Int.bmod_def]
  omega

/-- A count that was stored in an `int` is right to 32 bits. -/
theorem toSizeT_toInt32 {n : Nat} (upper : n < 2^32) : toSizeT (toInt32 n) = n ∨ toSizeT (toInt32 n) = 2^64 - 2^32 + n := by
  unfold toSizeT toInt32
  rw [Int.bmod_def]
  omega

namespace Bitmask

/-- The bits behind the limit set to the one at the limit. -/
def capped (b : Bitmask) (limit : Nat) : Bitmask := (b.writeBits (limit + 1) (b.bit limit) (b.totalBits - (limit + 1))).2

theorem capped_totalBits (b : Bitmask) (limit : Nat) : (b.capped limit).totalBits = b.totalBits := b.writeBits_totalBits _ _ _

theorem capped_bit (b : Bitmask) {limit k : Nat} (inside : k < b.totalBits) :
    (b.capped limit).bit k = b.bit (min k limit) := by
  rw [capped, writeBits_bit]
  by_cases far : limit < k
  · rw [if_pos (by omega), Nat.min_eq_right far.le]
  · rw [if_neg (by omega), Nat.min_eq_left (Nat.le_of_not_lt far)]

theorem capped_bit_of_le (b : Bitmask) {limit k : Nat} (small : k ≤ limit) : (b.capped limit).bit k = b.bit k := by
  rw [capped, writeBits_bit, if_neg (by omega)]

def lastInt : Nat := 2^31 - 1

/-- What a search with `int` indices makes of the bits: behind the last `int`, all are like that one. -/
abbrev intView (b : Bitmask) : Bitmask := b.capped lastInt

section View

variable (b : Bitmask)

def IndexFound (found : Option Nat) (i : Int) : Prop :=
  match found with
  | none => i < 0
  | some k => i = k ∧ k ≤ lastInt

variable (wide : b.totalBits < 2^32) {lo : Nat} (early : lo ≤ lastInt)

include wide early

theorem indexFound_capped (p : Nat → Bool) : IndexFound (nextIndex (fun k => p (min k lastInt)) b.totalBits lo)
    (match nextIndex p b.totalBits lo with
      | none => -1
      | some k => toInt32 k) := by
  rw [nextIndex_capped early]
  cases found : nextIndex p b.totalBits lo with
  | none => exact Int.negSucc_lt_zero 0
  | some k =>
    have inside := (nextIndex_some found).2.1
    by_cases small : k ≤ lastInt
    · rw [Option.filter_some_pos (by simpa using small)]
      exact ⟨toInt32_of_lt (by unfold lastInt at small; omega), small⟩
    · rw [Option.filter_some_neg (by simpa using small)]
      exact toInt32_neg (by unfold lastInt at small; omega) (by omega)

theorem nextOne_intView : IndexFound (nextIndex b.intView.bit b.totalBits lo) (b.nextOne lo) := by
  rw [nextOne_spec, nextIndex_congr fun j _ upper => b.capped_bit upper]
  exact b.indexFound_capped wide early b.bit

theorem nextZero_intView : IndexFound (nextIndex (fun k => !b.intView.bit k) b.totalBits lo) (b.nextZero lo) := by
  rw [nextZero_spec, nextIndex_congr fun j _ upper => congrArg Bool.not (b.capped_bit upper)]
  exact b.indexFound_capped wide early fun k => !b.bit k

end View

/-- What the iterator holds when the search for the next run began at `lo`: a run of the view, the last one with its
length in an `int`. -/
def IntIteratorAt (b : Bitmask) (it : ContinueIterator) (lo : Nat) : Prop :=
  match nextIndex b.intView.bit b.totalBits lo with
  | none => it.start < 0
  | some k =>
    it.start = k ∧ k ≤ lastInt ∧
      (it.stop = b.intView.runEnd k ∧ b.intView.runEnd k ≤ lastInt ∧ it.bits = (b.intView.runEnd k - k : Nat) ∨
        it.stop < 0 ∧ b.intView.runEnd k = b.totalBits ∧ it.bits = toInt32 (b.totalBits - k))

theorem continueUpdate_start (b : Bitmask) (it : ContinueIterator) :
    (b.continueUpdate it).start = b.nextOne (toSizeT it.start) := by
  unfold continueUpdate
  dsimp only
  split
  · rfl
  · split <;> rfl

theorem continueUpdate_stop (b : Bitmask) (it : ContinueIterator) (found : ¬ b.nextOne (toSizeT it.start) < 0) :
    (b.continueUpdate it).stop = b.nextZero (toSizeT (toInt32 (b.nextOne (toSizeT it.start) + 1))) := by
  unfold continueUpdate
  dsimp only
  rw [if_neg found]
  split <;> rfl

theorem continueUpdate_none (b : Bitmask) (it : ContinueIterator) (none : b.nextOne (toSizeT it.start) < 0) :
    b.continueUpdate it = { it with start := b.nextOne (toSizeT it.start) } := if_pos none

theorem continueUpdate_some (b : Bitmask) (it : ContinueIterator) {k : Nat} (found : b.nextOne (toSizeT it.start) = k) :
    b.continueUpdate it =
      if b.nextZero (toSizeT (toInt32 ((k : Int) + 1))) < 0 then
        ⟨k, toInt32 (b.totalBits - k), b.nextZero (toSizeT (toInt32 ((k : Int) + 1)))⟩
      else ⟨k, toInt32 (b.nextZero (toSizeT (toInt32 ((k : Int) + 1))) - k), b.nextZero (toSizeT (toInt32 ((k : Int) + 1)))⟩ := by
  rw [continueUpdate, found]
  exact if_neg (Int.not_lt.mpr (Int.natCast_nonneg k))

/-- The search for the end of a run at the last `int` starts at a negative index. -/
theorem nextZero_lastInt (b : Bitmask) (wide : b.totalBits < 2^32) :
    b.nextZero (toSizeT (toInt32 ((lastInt : Int) + 1))) < 0 := by
  rw [nextZero_spec, show toSizeT (toInt32 ((lastInt : Int) + 1)) = 2^64 - 2^31 by decide, nextIndex_eq_none]
  · exact Int.negSucc_lt_zero 0
  · intro j lower upper
    omega

theorem continueUpdate_intView (b : Bitmask) (wide : b.totalBits < 2^32) (it : ContinueIterator) {lo : Nat}
    (start : it.start = lo) (early : lo ≤ lastInt) : b.IntIteratorAt (b.continueUpdate it) lo := by
  have one := b.nextOne_intView wide early
  have position : toSizeT it.start = lo := by
    unfold lastInt at early
    rw [start, toSizeT_natCast (by omega)]
  unfold IntIteratorAt
  cases found : nextIndex b.intView.bit b.totalBits lo with
  | none =>
    rw [found, ← position] at one
    rw [b.continueUpdate_none it one]
    exact one
  | some k =>
    rw [found, ← position] at one
    rcases one with ⟨same, small⟩
    rw [b.continueUpdate_some it same]
    by_cases last : k = lastInt
    · have stop := b.nextZero_lastInt wide
      rw [← last] at stop
      have whole : b.intView.runEnd k = b.totalBits := by
        have set := (nextIndex_some found).2.2.1
        rw [last, capped_bit_of_le _ (Nat.le_refl _)] at set
        rw [runEnd, capped_totalBits, nextIndex_eq_none]
        · rfl
        · intro j lower upper
          rw [b.capped_bit upper, Nat.min_eq_right (by omega), set]
          rfl
      rw [if_pos stop]
      exact ⟨rfl, small, .inr ⟨stop, whole, rfl⟩⟩
    · have next : toSizeT (toInt32 ((k : Int) + 1)) = k + 1 := by
        unfold lastInt at small last
        rw [show (k : Int) + 1 = ((k + 1 : Nat) : Int) from rfl, toInt32_of_lt (by omega), toSizeT_natCast (by omega)]
      have zero := b.nextZero_intView wide (show k + 1 ≤ lastInt by omega)
      rw [next]
      cases stop : nextIndex (fun k => !b.intView.bit k) b.totalBits (k + 1) with
      | none =>
        have whole : b.intView.runEnd k = b.totalBits := by
          rw [runEnd, capped_totalBits, stop]
          rfl
        rw [stop] at zero
        have negative : b.nextZero (k + 1) < 0 := zero
        rw [if_pos negative]
        exact ⟨rfl, small, .inr ⟨negative, whole, rfl⟩⟩
      | some e =>
        have ends : b.intView.runEnd k = e := by
          rw [runEnd, capped_totalBits, stop]
          rfl
        have order := (nextIndex_some stop).1
        rw [stop] at zero
        rcases zero with ⟨same, near⟩
        rw [same, if_neg (Int.not_lt.mpr (Int.natCast_nonneg e))]
        dsimp only
        rw [ends]
        refine ⟨rfl, small, .inl ⟨rfl, near, ?_⟩⟩
        unfold lastInt at near
        rw [← Int.ofNat_sub (by omega), toInt32_of_lt (by omega)]

theorem continueInit_intView (b : Bitmask) (wide : b.totalBits < 2^32) : b.IntIteratorAt b.continueInit 0 :=
  b.continueUpdate_intView wide ⟨0, 0, 0⟩ rfl (Nat.zero_le _)

theorem continueNext_intView (b : Bitmask) (wide : b.totalBits < 2^32) {it : ContinueIterator} {lo k : Nat}
    (found : nextIndex b.intView.bit b.totalBits lo = some k) (here : b.IntIteratorAt it lo) :
    b.IntIteratorAt (b.continueNext it) (b.intView.runEnd k) := by
  unfold IntIteratorAt at here
  rw [found] at here
  unfold continueNext
  rcases here with ⟨_, _, ⟨stop, near, _⟩ | ⟨stop, whole, _⟩⟩
  · rw [if_neg (by omega)]
    exact b.continueUpdate_intView wide _ stop near
  · rw [if_pos stop, whole, IntIteratorAt, nextIndex_eq_none]
    · exact stop
    · intro j lower upper
      omega

end Bitmask

end ImgEditor
