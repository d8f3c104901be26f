import Mathlib.Data.List.GetD
import Mathlib.Tactic.Ring

namespace Storage

abbrev Byte := BitVec 8

instance byteLawful : LawfulBEq Byte := inferInstance

instance fourNeZero : NeZero 4 := ⟨by decide⟩

instance sixteenNeZero : NeZero 16 := ⟨by decide⟩

def leNumber : List Byte → Nat
  | [] => 0
  | head :: tail => head.toNat + 256 * leNumber tail

/-- The low `width` bytes of a number, least significant byte first. -/
def leBytes : Nat → Nat → List Byte
  | 0, _ => []
  | width + 1, n => BitVec.ofNat 8 n :: leBytes width (n / 256)

@[simp] theorem leBytes_length (width n : Nat) : (leBytes width n).length = width := by
  induction width generalizing n with
  | zero => rfl
  | succ width ih => simp [leBytes, ih]

theorem leNumber_lt (bytes : List Byte) : leNumber bytes < 256 ^ bytes.length := by
  induction bytes with
  | nil => decide
  | cons head tail ih =>
    have bound := head.isLt
    simp only [leNumber, List.length_cons, Nat.pow_succ]
    omega

theorem leNumber_leBytes (width n : Nat) : leNumber (leBytes width n) = n % 256 ^ width := by
  induction width generalizing n with
  | zero => simp [leBytes, leNumber, Nat.mod_one]
  | succ width ih =>
    simp only [leBytes, leNumber, ih, BitVec.toNat_ofNat]
    rw [Nat.pow_succ 256 width, Nat.mul_comm (256 ^ width), Nat.mod_mul]

theorem leBytes_leNumber (bytes : List Byte) : leBytes bytes.length (leNumber bytes) = bytes := by
  induction bytes with
  | nil => rfl
  | cons head tail ih =>
    have bound := head.isLt
    have quotient : (head.toNat + 256 * leNumber tail) / 256 = leNumber tail := by omega
    simp only [List.length_cons, leNumber, leBytes, quotient, ih]
    congr 1
    apply BitVec.eq_of_toNat_eq
    simp only [BitVec.toNat_ofNat]
    omega

theorem leBytes_mod (width n : Nat) : leBytes width (n % 256 ^ width) = leBytes width n := by
  have encoded := leBytes_leNumber (leBytes width n)
  rwa [leBytes_length, leNumber_leBytes] at encoded

@[simp] theorem leNumber_replicate_zero (count : Nat) :
    leNumber (List.replicate count 0#8) = 0 := by
  induction count with
  | zero => rfl
  | succ count ih => simp [List.replicate_succ, leNumber, ih]

def leField (bytes : List Byte) (offset width : Nat) : Nat := leNumber ((bytes.drop offset).take width)

@[simp] theorem leField_append_left (left right : List Byte) (offset width : Nat)
    (inside : offset + width ≤ left.length) :
    leField (left ++ right) offset width = leField left offset width := by
  unfold leField
  rw [List.drop_append_of_le_length (by omega), List.take_append_of_le_length]
  rw [List.length_drop]
  omega

@[simp] theorem leField_append_right (left right : List Byte) (offset width : Nat)
    (beyond : left.length ≤ offset) :
    leField (left ++ right) offset width = leField right (offset - left.length) width := by
  unfold leField
  rw [List.drop_append, List.drop_eq_nil_of_le beyond, List.nil_append]

@[simp] theorem leField_leBytes (width n : Nat) : leField (leBytes width n) 0 width = n % 256 ^ width := by
  unfold leField
  rw [List.drop_zero, List.take_of_length_le (by simp), leNumber_leBytes]

theorem leField_lt (bytes : List Byte) (offset width : Nat) :
    leField bytes offset width < 256 ^ width := by
  apply Nat.lt_of_lt_of_le (leNumber_lt _)
  apply Nat.pow_le_pow_right (by omega)
  exact List.length_take_le _ _

end Storage
