import ImgEditor.Storage.Record

namespace ImgEditor

open Storage

def be32 (bytes : List Byte) (offset : Nat) : BitVec 32 :=
  BitVec.ofNat 32 (leNumber ((bytes.drop offset).take 4).reverse)

def cpuToBe32 (n : BitVec 32) : List Byte := (leBytes 4 n.toNat).reverse

@[simp] theorem cpuToBe32_length (n : BitVec 32) : (cpuToBe32 n).length = 4 := by
  simp [cpuToBe32]

theorem be32_cpuToBe32 (n : BitVec 32) (rest : List Byte) : be32 (cpuToBe32 n ++ rest) 0 = n := by
  have bound := n.isLt
  have whole : (cpuToBe32 n ++ rest).take 4 = cpuToBe32 n := List.take_left' (cpuToBe32_length n)
  rw [be32, List.drop_zero, whole, cpuToBe32, List.reverse_reverse, leNumber_leBytes]
  apply BitVec.eq_of_toNat_eq
  rw [BitVec.toNat_ofNat]
  omega

theorem be32_field (bytes : List Byte) (offset : Nat) : be32 bytes offset = be32 (field bytes offset 4) 0 := by
  rw [be32, be32, field, List.drop_zero, List.take_take, Nat.min_self]

theorem cpuToBe32_be32 {bytes : List Byte} {offset : Nat} (inside : offset + 4 ≤ bytes.length) :
    cpuToBe32 (be32 bytes offset) = field bytes offset 4 := by
  have length : (field bytes offset 4).reverse.length = 4 := by rw [List.length_reverse, field_length inside]
  have bound := leNumber_lt (field bytes offset 4).reverse
  have whole := leBytes_leNumber (field bytes offset 4).reverse
  rw [length] at bound whole
  have small : leNumber (field bytes offset 4).reverse < 2 ^ 32 := by omega
  rw [cpuToBe32, be32, ← field, BitVec.toNat_ofNat, Nat.mod_eq_of_lt small, whole, List.reverse_reverse]

theorem be32_drop (bytes : List Byte) (skipped offset : Nat) :
    be32 (bytes.drop skipped) offset = be32 bytes (skipped + offset) := by
  rw [be32, be32, List.drop_drop]

theorem be32_take {bytes : List Byte} {count offset : Nat} (inside : offset + 4 ≤ count) :
    be32 (bytes.take count) offset = be32 bytes offset := by
  rw [be32, be32, List.drop_take, List.take_take, Nat.min_eq_left (by omega)]

def be32Words (words : List (BitVec 32)) : List Byte := words.flatMap cpuToBe32

@[simp] theorem be32Words_length (words : List (BitVec 32)) : (be32Words words).length = 4 * words.length := by
  induction words with
  | nil => rfl
  | cons word words ih =>
    rw [be32Words, List.flatMap_cons, List.length_append, cpuToBe32_length, ← be32Words, ih, List.length_cons]
    omega

theorem be32_be32Words {words : List (BitVec 32)} {rest : List Byte} {i : Nat} {word : BitVec 32}
    (at_ : words[i]? = some word) : be32 (be32Words words ++ rest) (4 * i) = word := by
  induction words generalizing i with
  | nil => cases at_
  | cons head words ih =>
    have shape : be32Words (head :: words) ++ rest = cpuToBe32 head ++ (be32Words words ++ rest) := by
      simp [be32Words]
    rw [shape]
    cases i with
    | zero =>
      obtain rfl : head = word := by simpa using at_
      exact be32_cpuToBe32 head _
    | succ i =>
      have skipped : (cpuToBe32 head ++ (be32Words words ++ rest)).drop 4 = be32Words words ++ rest :=
        List.drop_left' (cpuToBe32_length head)
      rw [Nat.mul_succ, Nat.add_comm, ← be32_drop, skipped]
      exact ih (by simpa using at_)

end ImgEditor
