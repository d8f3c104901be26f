import Mathlib.Data.List.TakeWhile
import Mathlib.Data.Nat.Digits.Lemmas
import ImgEditor.Storage.Bytes

namespace CText

open Storage

/-- A C string without its terminating zero. -/
abbrev CString := List Byte

def digitChar (d : Nat) : Byte := BitVec.ofNat 8 (if d < 10 then 48 + d else 87 + d)

def digitValue (c : Byte) : Nat :=
  if 48 ≤ c.toNat ∧ c.toNat ≤ 57 then c.toNat - 48
  else if 97 ≤ c.toNat ∧ c.toNat ≤ 122 then c.toNat - 87
  else if 65 ≤ c.toNat ∧ c.toNat ≤ 90 then c.toNat - 55
  else 255

def isDigit (base : Nat) (c : Byte) : Bool := digitValue c < base

def isSpace (c : Byte) : Bool := c = 32 ∨ (9 ≤ c.toNat ∧ c.toNat ≤ 13)

def numeral (base : Nat) (digits : List Byte) : Nat :=
  digits.foldl (fun value c => value * base + digitValue c) 0

def skipHexPrefix (base : Nat) : List Byte → List Byte
  | zero :: x :: rest =>
    if base = 16 ∧ zero = 48 ∧ (x = 120 ∨ x = 88) ∧ (rest.head?.any (isDigit 16)) then rest else zero :: x :: rest
  | s => s

def takeSign : CString → Bool × CString
  | [] => (false, [])
  | c :: rest => if c = 45 then (true, rest) else if c = 43 then (false, rest) else (false, c :: rest)

def clampUll (negative : Bool) (value : Nat) : Nat :=
  if value < 2 ^ 64 then (if negative then (2 ^ 64 - value) % 2 ^ 64 else value) else 2 ^ 64 - 1

/-- strtoull(3) and, for a 64 bit long, strtoul(3): the value and what follows the number. -/
def strtoull (base : Nat) (s : CString) : Nat × CString :=
  let sign := takeSign (s.dropWhile isSpace)
  let number := skipHexPrefix base sign.2
  let digits := number.takeWhile (isDigit base)
  if digits = [] then (0, s)
  else (clampUll sign.1 (numeral base digits), number.dropWhile (isDigit base))

def clampLl (negative : Bool) (value : Nat) : Int :=
  if negative then max (-(value : Int)) (-2 ^ 63) else min value (2 ^ 63 - 1)

/-- strtol(3) for a 64 bit long. -/
def strtol (base : Nat) (s : CString) : Int × CString :=
  let sign := takeSign (s.dropWhile isSpace)
  let number := skipHexPrefix base sign.2
  let digits := number.takeWhile (isDigit base)
  if digits = [] then (0, s)
  else (clampLl sign.1 (numeral base digits), number.dropWhile (isDigit base))

/-- The base that strtoul(3) finds out for base 0, behind the sign. -/
def detectBase : CString → Nat
  | [] => 10
  | [zero] => if zero = 48 then 8 else 10
  | zero :: x :: rest =>
    if zero = 48 then (if (x = 120 ∨ x = 88) ∧ (rest.head?.any (isDigit 16)) then 16 else 8) else 10

def strtoulAnyBase (s : CString) : Nat × CString :=
  strtoull (detectBase (takeSign (s.dropWhile isSpace)).2) s

def printed (base n : Nat) : CString := if n = 0 then [48] else ((Nat.digits base n).reverse.map digitChar)

def decimal (n : Nat) : CString := if n = 0 then [48] else ((Nat.digits 10 n).reverse.map digitChar)

/-- printf of `%0<width>x` for a number of at most `width` digits. -/
def hexFixed : Nat → Nat → CString
  | 0, _ => []
  | width + 1, n => hexFixed width (n / 16) ++ [digitChar (n % 16)]

theorem digitValue_digitChar {d : Nat} (small : d < 16) : digitValue (digitChar d) = d := by
  have all : ∀ d : Fin 16, digitValue (digitChar d) = d := by decide
  exact all ⟨d, small⟩

theorem digitChar_digit {base d : Nat} (small : d < base) (bounded : base ≤ 16) :
    isDigit base (digitChar d) = true := by
  rw [isDigit, digitValue_digitChar (by omega)]
  simpa using small

theorem isSpace_digitChar {d : Nat} (small : d < 16) : isSpace (digitChar d) = false := by
  have all : ∀ d : Fin 16, isSpace (digitChar d) = false := by decide
  exact all ⟨d, small⟩

theorem digitChar_ne_sign {d : Nat} (small : d < 16) : digitChar d ≠ 45 ∧ digitChar d ≠ 43 := by
  have all : ∀ d : Fin 16, digitChar d ≠ 45 ∧ digitChar d ≠ 43 := by decide
  exact all ⟨d, small⟩

theorem strtoull_number {base : Nat} {s digits : CString} {negative : Bool}
    (number : (takeSign (s.dropWhile isSpace)).1 = negative ∧
      skipHexPrefix base (takeSign (s.dropWhile isSpace)).2 = digits)
    (nonempty : digits ≠ []) (valid : ∀ c ∈ digits, isDigit base c = true) :
    strtoull base s = (clampUll negative (numeral base digits), []) := by
  have whole : digits.takeWhile (isDigit base) = digits := List.takeWhile_eq_self_iff.mpr valid
  have ended : digits.dropWhile (isDigit base) = [] := List.dropWhile_eq_nil_iff.mpr valid
  simp only [strtoull, number.1, number.2, whole, ended, if_neg nonempty]

theorem strtol_number {base : Nat} {s digits : CString} {negative : Bool}
    (number : (takeSign (s.dropWhile isSpace)).1 = negative ∧
      skipHexPrefix base (takeSign (s.dropWhile isSpace)).2 = digits)
    (nonempty : digits ≠ []) (valid : ∀ c ∈ digits, isDigit base c = true) :
    strtol base s = (clampLl negative (numeral base digits), []) := by
  have whole : digits.takeWhile (isDigit base) = digits := List.takeWhile_eq_self_iff.mpr valid
  have ended : digits.dropWhile (isDigit base) = [] := List.dropWhile_eq_nil_iff.mpr valid
  simp only [strtol, number.1, number.2, whole, ended, if_neg nonempty]

theorem takeSign_plain {head : Byte} {tail : CString} (space : isSpace head = false) (minus : head ≠ 45)
    (plus : head ≠ 43) : takeSign ((head :: tail).dropWhile isSpace) = (false, head :: tail) := by
  rw [List.dropWhile_cons_of_neg (by simp [space]), takeSign, if_neg minus, if_neg plus]

theorem numeral_append (base : Nat) (digits : List Byte) (c : Byte) :
    numeral base (digits ++ [c]) = numeral base digits * base + digitValue c := by
  simp [numeral]

theorem numeral_digits {base : Nat} (digits : List Nat) (bounded : base ≤ 16)
    (valid : ∀ d ∈ digits, d < base) :
    numeral base (digits.reverse.map digitChar) = Nat.ofDigits base digits := by
  induction digits with
  | nil => rfl
  | cons head tail ih =>
    have small := valid head List.mem_cons_self
    rw [List.reverse_cons, List.map_append, List.map_singleton, numeral_append,
      ih fun d member => valid d (List.mem_cons_of_mem _ member), digitValue_digitChar (by omega),
      Nat.ofDigits_cons]
    ring

theorem printed_eq {base : Nat} (several : 1 < base) (n : Nat) :
    ∃ digits : List Nat, digits ≠ [] ∧ (∀ d ∈ digits, d < base) ∧
      printed base n = digits.reverse.map digitChar ∧ Nat.ofDigits base digits = n := by
  by_cases zero : n = 0
  · exact ⟨[0], by simp, by simp; omega, by simp [printed, zero, digitChar], by simp [zero]⟩
  · exact ⟨Nat.digits base n, Nat.digits_ne_nil_iff_ne_zero.mpr zero,
      fun d member => Nat.digits_lt_base several member, by simp [printed, zero], Nat.ofDigits_digits base n⟩

theorem printed_valid {base : Nat} (several : 1 < base) (bounded : base ≤ 16) (n : Nat) :
    printed base n ≠ [] ∧ (∀ c ∈ printed base n, isDigit base c = true) ∧
      (∀ c ∈ printed base n, ∃ d < 16, c = digitChar d) ∧ numeral base (printed base n) = n := by
  obtain ⟨digits, nonempty, valid, shape, value⟩ := printed_eq several n
  rw [shape]
  refine ⟨by simpa using nonempty, ?_, ?_, ?_⟩
  · intro c member
    obtain ⟨d, inside, rfl⟩ := List.mem_map.mp member
    exact digitChar_digit (valid d (List.mem_reverse.mp inside)) bounded
  · intro c member
    obtain ⟨d, inside, rfl⟩ := List.mem_map.mp member
    have small := valid d (List.mem_reverse.mp inside)
    exact ⟨d, by omega, rfl⟩
  · rw [numeral_digits digits bounded valid, value]

theorem printed_length_le {base n width : Nat} (several : 1 < base) (positive : 0 < width) (small : n < base ^ width) :
    (printed base n).length ≤ width := by
  unfold printed
  split
  · exact positive
  · rw [List.length_map, List.length_reverse]
    exact (Nat.digits_length_le_iff several n).mpr small

theorem skipHexPrefix_decimal (s : List Byte) : skipHexPrefix 10 s = s := by
  unfold skipHexPrefix
  split
  · rw [if_neg (by simp)]
  · rfl

theorem decimal_valid (n : Nat) : decimal n ≠ [] ∧ (∀ c ∈ decimal n, isDigit 10 c = true) ∧
    (∀ c ∈ decimal n, isSpace c = false ∧ c ≠ 45 ∧ c ≠ 43) ∧ numeral 10 (decimal n) = n := by
  have same : decimal n = printed 10 n := rfl
  obtain ⟨nonempty, valid, plain, value⟩ := printed_valid (show 1 < 10 by decide) (by decide) n
  rw [same]
  refine ⟨nonempty, valid, ?_, value⟩
  intro c member
  obtain ⟨d, small, rfl⟩ := plain c member
  exact ⟨isSpace_digitChar small, digitChar_ne_sign small⟩

theorem strtoull_decimal {n : Nat} (small : n < 2 ^ 64) : strtoull 10 (decimal n) = (n, []) := by
  obtain ⟨nonempty, valid, plain, value⟩ := decimal_valid n
  obtain ⟨head, tail, shape⟩ := List.exists_cons_of_ne_nil nonempty
  obtain ⟨space, minus, plus⟩ := plain head (by simp [shape])
  have sign : takeSign ((decimal n).dropWhile isSpace) = (false, decimal n) := by
    rw [shape]
    exact takeSign_plain space minus plus
  rw [strtoull_number ⟨by rw [sign], by rw [sign]; exact skipHexPrefix_decimal _⟩ nonempty valid, value,
    clampUll, if_pos small]
  rfl

theorem strtoull_minus_decimal {n : Nat} (small : n < 2 ^ 64) :
    strtoull 10 (45 :: decimal n) = ((2 ^ 64 - n) % 2 ^ 64, []) := by
  obtain ⟨nonempty, valid, _, value⟩ := decimal_valid n
  have sign : takeSign (((45 : Byte) :: decimal n).dropWhile isSpace) = (true, decimal n) := by
    rw [List.dropWhile_cons_of_neg (by decide), takeSign, if_pos rfl]
  rw [strtoull_number ⟨by rw [sign], by rw [sign]; exact skipHexPrefix_decimal _⟩ nonempty valid, value,
    clampUll, if_pos small]
  rfl

@[simp] theorem hexFixed_length (width n : Nat) : (hexFixed width n).length = width := by
  induction width generalizing n with
  | zero => rfl
  | succ width ih => simp [hexFixed, ih]

theorem hexFixed_valid (width n : Nat) : ∀ c ∈ hexFixed width n, isDigit 16 c = true := by
  induction width generalizing n with
  | zero => simp [hexFixed]
  | succ width ih =>
    intro c member
    rcases List.mem_append.mp member with member | member
    · exact ih (n / 16) c member
    · rw [List.mem_singleton.mp member]
      exact digitChar_digit (Nat.mod_lt _ (by decide)) (le_refl _)

theorem numeral_hexFixed (width n : Nat) : numeral 16 (hexFixed width n) = n % 16 ^ width := by
  induction width generalizing n with
  | zero => simp [hexFixed, numeral, Nat.mod_one]
  | succ width ih =>
    rw [hexFixed, numeral_append, ih, digitValue_digitChar (Nat.mod_lt _ (by decide)), Nat.pow_succ,
      Nat.mul_comm (16 ^ width) 16, Nat.mod_mul]
    ring

theorem hexFixed_nonempty {width : Nat} (positive : 0 < width) (n : Nat) : hexFixed width n ≠ [] := by
  intro empty
  have length := hexFixed_length width n
  rw [empty] at length
  simp only [List.length_nil] at length
  omega

theorem hexFixed_number {width : Nat} (positive : 0 < width) (n : Nat) :
    (takeSign (((48 : Byte) :: 120 :: hexFixed width n).dropWhile isSpace)).1 = false ∧
      skipHexPrefix 16 (takeSign (((48 : Byte) :: 120 :: hexFixed width n).dropWhile isSpace)).2 = hexFixed width n := by
  obtain ⟨head, tail, shape⟩ := List.exists_cons_of_ne_nil (hexFixed_nonempty positive n)
  have headDigit : isDigit 16 head = true := hexFixed_valid width n head (by simp [shape])
  have sign : takeSign (((48 : Byte) :: 120 :: hexFixed width n).dropWhile isSpace) =
      (false, 48 :: 120 :: hexFixed width n) := takeSign_plain (by decide) (by decide) (by decide)
  rw [sign]
  simp [skipHexPrefix, shape, headDigit]

theorem strtoull_hexFixed {width n : Nat} (positive : 0 < width) (fits : n < 16 ^ width) (small : n < 2 ^ 64) :
    strtoull 16 (48 :: 120 :: hexFixed width n) = (n, []) := by
  rw [strtoull_number (hexFixed_number positive n) (hexFixed_nonempty positive n) (hexFixed_valid width n),
    numeral_hexFixed, Nat.mod_eq_of_lt fits, clampUll, if_pos small]
  rfl

theorem strtol_hexFixed {width n : Nat} (positive : 0 < width) (fits : n < 16 ^ width) (small : n < 2 ^ 63) :
    strtol 16 (48 :: 120 :: hexFixed width n) = ((n : Int), []) := by
  rw [strtol_number (hexFixed_number positive n) (hexFixed_nonempty positive n) (hexFixed_valid width n),
    numeral_hexFixed, Nat.mod_eq_of_lt fits]
  have same : clampLl false n = n := by
    unfold clampLl
    rw [if_neg (by decide)]
    omega
  rw [same]

theorem strtoulAnyBase_hex {n : Nat} (small : n < 2 ^ 64) : strtoulAnyBase (48 :: 120 :: printed 16 n) = (n, []) := by
  obtain ⟨nonempty, valid, _, value⟩ := printed_valid (show 1 < 16 by decide) (by decide) n
  obtain ⟨head, tail, shape⟩ := List.exists_cons_of_ne_nil nonempty
  have headDigit : isDigit 16 head = true := valid head (by simp [shape])
  have sign : takeSign (((48 : Byte) :: 120 :: printed 16 n).dropWhile isSpace) =
      (false, 48 :: 120 :: printed 16 n) := takeSign_plain (by decide) (by decide) (by decide)
  have skipped : skipHexPrefix 16 (48 :: 120 :: printed 16 n) = printed 16 n := by
    simp [skipHexPrefix, shape, headDigit]
  have base : detectBase (48 :: 120 :: printed 16 n) = 16 := by
    simp [detectBase, shape, headDigit]
  rw [strtoulAnyBase, sign, base, strtoull_number ⟨by rw [sign], by rw [sign]; exact skipped⟩ nonempty valid, value,
    clampUll, if_pos small]
  rfl

end CText
