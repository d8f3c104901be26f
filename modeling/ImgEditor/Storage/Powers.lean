import Mathlib.Data.Nat.Log
import Mathlib.Order.Bounds.Basic
import Mathlib.Tactic.Ring

namespace Storage

def IsPower (b a : Nat) : Prop := ∃ k, a = b ^ (k + 1)

def nextPower (b n : Nat) : Nat := b ^ (Nat.log b n + 1)

theorem nextPower_isLeast {b : Nat} (base : 1 < b) (n : Nat) : IsLeast {m | n < m ∧ IsPower b m} (nextPower b n) := by
  constructor
  · exact ⟨Nat.lt_pow_succ_log_self base n, _, rfl⟩
  · rintro m ⟨above, k, rfl⟩
    exact Nat.pow_le_pow_right (by omega) (Nat.log_lt_of_lt_pow' (by omega) above)

theorem isPower_of_le {a b : Nat} (base : 1 < b) (small : a ≤ b) : IsPower b a ↔ a = b := by
  constructor
  · rintro ⟨k, rfl⟩
    cases k with
    | zero => exact Nat.pow_one b
    | succ k =>
      have grows : b ^ 1 < b ^ (k + 1 + 1) := Nat.pow_lt_pow_right base (by omega)
      rw [Nat.pow_one] at grows
      omega
  · rintro rfl
    exact ⟨0, (Nat.pow_one a).symm⟩

theorem isPower_of_lt {a b : Nat} (base : 1 < b) (large : b < a) : IsPower b a ↔ a % b = 0 ∧ IsPower b (a / b) := by
  constructor
  · rintro ⟨k, rfl⟩
    cases k with
    | zero =>
      rw [Nat.zero_add, Nat.pow_one] at large
      omega
    | succ k =>
      rw [Nat.pow_succ, Nat.mul_mod_left, Nat.mul_div_cancel _ (by omega)]
      exact ⟨rfl, k, rfl⟩
  · rintro ⟨divides, k, quotient⟩
    refine ⟨k + 1, ?_⟩
    rw [Nat.pow_succ, ← quotient, Nat.div_mul_cancel (Nat.dvd_of_mod_eq_zero divides)]

/-! Powers of several bases that grow in lock-step, each until it is above `n`. -/

/-- What has become of base `b` after `t` steps. -/
def powerAfter (b n t : Nat) : Nat := b ^ (min t (Nat.log b n) + 1)

theorem powerAfter_zero (b n : Nat) : powerAfter b n 0 = b := by
  rw [powerAfter, Nat.zero_min, Nat.zero_add, Nat.pow_one]

theorem powerAfter_done {b n t : Nat} (done : Nat.log b n ≤ t) : powerAfter b n t = nextPower b n := by
  rw [powerAfter, Nat.min_eq_right done, nextPower]

theorem powerAfter_le_iff {b n : Nat} (base : 1 < b) (positive : n ≠ 0) (t : Nat) : powerAfter b n t ≤ n ↔ t < Nat.log b n := by
  rw [powerAfter, ← Nat.le_log_iff_pow_le base positive]
  omega

theorem powerAfter_succ {b n : Nat} (base : 1 < b) (positive : n ≠ 0) (t : Nat) :
    powerAfter b n (t + 1) = if powerAfter b n t ≤ n then powerAfter b n t * b else powerAfter b n t := by
  by_cases growing : t < Nat.log b n
  · rw [if_pos ((powerAfter_le_iff base positive t).mpr growing), powerAfter, powerAfter, ← Nat.pow_succ,
      Nat.min_eq_left growing, Nat.min_eq_left (by omega)]
  · rw [if_neg (mt (powerAfter_le_iff base positive t).mp growing), powerAfter_done (by omega), powerAfter_done (by omega)]

theorem powerAfter_le_nextPower {b : Nat} (base : 1 < b) (n t : Nat) : powerAfter b n t ≤ nextPower b n :=
  Nat.pow_le_pow_right (by omega) (by omega)

/-! A walk from one element of a set to the next. -/

/-- The elements below `limit` that the walk comes to; `none` when it takes more than `fuel` steps. -/
def walkUpTo (next : Nat → Option Nat) (limit : Nat) : Nat → Nat → Option (List Nat)
  | 0, _ => none
  | fuel + 1, i =>
    if i < limit then do
      let following ← next i
      let rest ← walkUpTo next limit fuel following
      return i :: rest
    else some []

theorem walkUpTo_lists {next : Nat → Option Nat} {p : Nat → Prop} {limit : Nat}
    (least : ∀ i < limit, p i → ∃ m, next i = some m ∧ IsLeast {m | i < m ∧ p m} m) (fuel i : Nat) (enough : limit ≤ i + fuel)
    (begins : p i) : ∃ visits, walkUpTo next limit (fuel + 1) i = some visits ∧ visits.Pairwise (· < ·) ∧
      ∀ m, m ∈ visits ↔ i ≤ m ∧ m < limit ∧ p m := by
  induction fuel generalizing i with
  | zero =>
    refine ⟨[], if_neg (by omega), List.Pairwise.nil, ?_⟩
    intro m
    simp only [List.not_mem_nil, false_iff]
    omega
  | succ fuel ih =>
    by_cases inside : i < limit
    · rcases least i inside begins with ⟨following, found, ⟨above, member⟩, first⟩
      rcases ih following (by omega) member with ⟨rest, walked, increasing, visited⟩
      have steps : walkUpTo next limit (fuel + 1 + 1) i = some (i :: rest) := by
        rw [walkUpTo, if_pos inside, found, Option.bind_eq_bind, Option.bind_some, walked]
        rfl
      refine ⟨i :: rest, steps, ?_, ?_⟩
      · rw [List.pairwise_cons]
        refine ⟨?_, increasing⟩
        intro m among
        have later := ((visited m).mp among).1
        exact Nat.lt_of_lt_of_le above later
      · intro m
        rw [List.mem_cons, visited]
        constructor
        · rintro (rfl | ⟨later, below, holds⟩)
          · exact ⟨Nat.le_refl _, inside, begins⟩
          · exact ⟨(Nat.le_of_lt above).trans later, below, holds⟩
        · rintro ⟨start, below, holds⟩
          rcases Nat.eq_or_lt_of_le start with rfl | greater
          · exact .inl rfl
          · exact .inr ⟨first ⟨greater, holds⟩, below, holds⟩
    · refine ⟨[], if_neg inside, List.Pairwise.nil, ?_⟩
      intro m
      simp only [List.not_mem_nil, false_iff]
      omega

end Storage
