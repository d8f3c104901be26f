import Mathlib.Data.BitVec
import Mathlib.Logic.Function.Iterate

namespace Crc

variable {w : Nat}

/-- One step of the division by `poly`: the top bit leaves the register. -/
def shift (poly register : BitVec w) : BitVec w :=
  if register.msb then (register <<< 1) ^^^ poly else register <<< 1

def serialBit (poly register : BitVec w) (bit : Bool) : BitVec w :=
  if register.msb ^^ bit then (register <<< 1) ^^^ poly else register <<< 1

def serial (poly register : BitVec w) (bits : List Bool) : BitVec w :=
  bits.foldl (serialBit poly) register

def msbFirst (byte : BitVec 8) : List Bool :=
  List.ofFn fun i : Fin 8 => byte.getMsbD i

def lsbFirst (byte : BitVec 8) : List Bool :=
  List.ofFn fun i : Fin 8 => byte.getLsbD i

/-- The CRC of a message, bit by bit. The seed and the final xor are given in the bit order of the result. -/
def reference (poly seed xorResult : BitVec w) (refin refout : Bool) (message : List (BitVec 8)) : BitVec w :=
  let bits := message.flatMap (if refin then lsbFirst else msbFirst)
  let register := serial poly (if refout then seed.reverse else seed) bits
  (if refout then register.reverse else register) ^^^ xorResult

theorem serial_append (poly register : BitVec w) (front rest : List Bool) :
    serial poly register (front ++ rest) = serial poly (serial poly register front) rest :=
  List.foldl_append

theorem shift_xor (poly x y : BitVec w) : shift poly (x ^^^ y) = shift poly x ^^^ shift poly y := by
  unfold shift
  rw [BitVec.msb_xor, BitVec.shiftLeft_xor_distrib]
  rcases x.msb <;> rcases y.msb
  · simp
  · simp [BitVec.xor_assoc]
  · simp [BitVec.xor_assoc, BitVec.xor_comm poly]
  · have cancel : x <<< 1 ^^^ poly ^^^ (y <<< 1 ^^^ poly) = x <<< 1 ^^^ y <<< 1 := by
      rw [BitVec.xor_comm (y <<< 1), BitVec.xor_assoc, ← BitVec.xor_assoc poly, BitVec.xor_self, BitVec.zero_xor]
    simp [cancel]

theorem shift_iterate_xor (poly : BitVec w) (n : Nat) (x y : BitVec w) :
    (shift poly)^[n] (x ^^^ y) = (shift poly)^[n] x ^^^ (shift poly)^[n] y := by
  induction n generalizing x y with
  | zero => rfl
  | succ n ih => simp only [Function.iterate_succ_apply, shift_xor, ih]

theorem shift_iterate_low (poly : BitVec w) {n : Nat} {x : BitVec w} (low : ∀ i, i < n → x.getMsbD i = false) :
    (shift poly)^[n] x = x <<< n := by
  induction n with
  | zero => simp
  | succ n ih =>
    rw [Function.iterate_succ_apply', ih fun i below => low i (by omega)]
    have top : (x <<< n).msb = false := by
      rw [BitVec.msb_eq_getMsbD_zero, BitVec.getMsbD_shiftLeft]
      simpa using low n (by omega)
    rw [shift, top, if_neg (by simp), BitVec.shiftLeft_add]

def place : List Bool → BitVec w
  | [] => 0
  | bit :: rest => (if bit then BitVec.twoPow w (w - 1) else 0) ^^^ (place rest >>> 1)

theorem place_getMsbD (bits : List Bool) {i : Nat} (inside : i < w) :
    (place bits : BitVec w).getMsbD i = bits[i]?.getD false := by
  induction bits generalizing i with
  | nil => simp [place]
  | cons bit rest ih =>
    have entering : (if bit then BitVec.twoPow w (w - 1) else 0).getMsbD i = (decide (i = 0) && bit) := by
      rcases bit
      · simp
      · have same : w - 1 - i = w - 1 ↔ i = 0 := by omega
        have same' : w - 1 = w - 1 - i ↔ i = 0 := by omega
        rw [if_pos rfl, BitVec.getMsbD_eq_getLsbD, BitVec.getLsbD_twoPow]
        simp [inside, same', show w - 1 < w by omega]
    rw [place, BitVec.getMsbD_xor, entering, BitVec.getMsbD_ushiftRight]
    cases i with
    | zero => simp
    | succ i => simp [ih (show i < w by omega), show i + 1 < w from inside]

theorem serialBit_shift (poly register : BitVec w) (bit : Bool) (positive : 0 < w) :
    serialBit poly register bit = shift poly (register ^^^ if bit then BitVec.twoPow w (w - 1) else 0) := by
  rcases bit
  · simp [serialBit, shift]
  · have top : (register ^^^ BitVec.twoPow w (w - 1)).msb = !register.msb := by
      simp [BitVec.msb_xor, BitVec.msb_twoPow, show w - 1 < w by omega]
    have gone : BitVec.twoPow w (w - 1) <<< 1 = 0 := by
      rw [BitVec.twoPow_eq, ← BitVec.shiftLeft_add, show w - 1 + 1 = w by omega]
      simp
    simp [serialBit, shift, top, BitVec.shiftLeft_xor_distrib, gone]

/-- The bits may all be put into the register before it is shifted. -/
theorem serial_place (poly register : BitVec w) {bits : List Bool} (fits : bits.length ≤ w) :
    serial poly register bits = (shift poly)^[bits.length] (register ^^^ place bits) := by
  induction bits generalizing register with
  | nil => simp [serial, place]
  | cons bit rest ih =>
    have fits' : rest.length < w := fits
    have back : shift poly (place rest >>> 1) = place rest := by
      rw [shift, if_neg]
      · apply BitVec.eq_of_getMsbD_eq
        intro i inside
        rw [BitVec.getMsbD_shiftLeft, BitVec.getMsbD_ushiftRight, place_getMsbD rest inside]
        by_cases last : i + 1 < w
        · simp [last, place_getMsbD rest (show i < w by omega)]
        · have clear : rest[i]? = none := List.getElem?_eq_none (by omega)
          simp [last, clear]
      · simp [BitVec.msb_ushiftRight]
    calc serial poly register (bit :: rest)
        = serial poly (serialBit poly register bit) rest := rfl
      _ = (shift poly)^[rest.length] (serialBit poly register bit ^^^ place rest) := ih _ (by omega)
      _ = (shift poly)^[rest.length] (shift poly (register ^^^ place (bit :: rest))) := by
          rw [serialBit_shift _ _ _ (by omega), place, ← BitVec.xor_assoc, shift_xor poly _ (place rest >>> 1), back]
      _ = (shift poly)^[(bit :: rest).length] (register ^^^ place (bit :: rest)) := rfl

theorem place_msbFirst (byte : BitVec 8) (wide : 8 ≤ w) :
    (place (msbFirst byte) : BitVec w) = byte.setWidth w <<< (w - 8) := by
  apply BitVec.eq_of_getMsbD_eq
  intro i inside
  have same : i + (w - 8) + 8 - w = i := by omega
  rw [place_getMsbD _ inside, msbFirst, List.getElem?_ofFn, BitVec.getMsbD_shiftLeft, BitVec.getMsbD_setWidth, same]
  by_cases first : i < 8
  · rw [dif_pos first]
    simp
  · have clear : byte.getMsbD i = false := BitVec.getMsbD_of_ge _ _ (by omega)
    rw [dif_neg first]
    simp [clear]

theorem shiftLeft_gone (x : BitVec w) (wide : 8 ≤ w) : x <<< (w - 8) <<< 8 = 0#w := by
  rw [← BitVec.shiftLeft_add, show w - 8 + 8 = w by omega]
  simp

theorem shift_eight (poly register : BitVec w) (wide : 8 ≤ w) :
    (shift poly)^[8] register =
      (register <<< 8) ^^^ (shift poly)^[8] ((register >>> (w - 8)) <<< (w - 8)) := by
  have low : ∀ i, i < 8 → (register ^^^ (register >>> (w - 8)) <<< (w - 8)).getMsbD i = false := by
    intro i below
    rw [BitVec.getMsbD_xor, BitVec.getMsbD_shiftLeft, BitVec.getMsbD_ushiftRight]
    simp [show i + (w - 8) < w by omega]
  have split : register = (register ^^^ (register >>> (w - 8)) <<< (w - 8)) ^^^ (register >>> (w - 8)) <<< (w - 8) := by
    rw [BitVec.xor_assoc, BitVec.xor_self, BitVec.xor_zero]
  calc (shift poly)^[8] register
      = (shift poly)^[8] (register ^^^ (register >>> (w - 8)) <<< (w - 8)) ^^^
          (shift poly)^[8] ((register >>> (w - 8)) <<< (w - 8)) := by
        rw [← shift_iterate_xor, ← split]
    _ = (register <<< 8) ^^^ (shift poly)^[8] ((register >>> (w - 8)) <<< (w - 8)) := by
        rw [shift_iterate_low poly low, BitVec.shiftLeft_xor_distrib, shiftLeft_gone _ wide, BitVec.xor_zero]

/-- A byte of the message at once: the table holds eight shifts of every first byte. -/
theorem serial_byte (poly register : BitVec w) (byte : BitVec 8) (wide : 8 ≤ w) :
    serial poly register (msbFirst byte) =
      (register <<< 8) ^^^ (shift poly)^[8] (((register >>> (w - 8)) ^^^ byte.setWidth w) <<< (w - 8)) := by
  have length : (msbFirst byte).length = 8 := by simp [msbFirst]
  have back : (byte.setWidth w <<< (w - 8)) >>> (w - 8) = byte.setWidth w := by
    apply BitVec.eq_of_getLsbD_eq
    intro i inside
    rw [BitVec.getLsbD_ushiftRight, BitVec.getLsbD_shiftLeft, BitVec.getLsbD_setWidth]
    by_cases first : i < 8
    · simp [show w - 8 + i < w by omega, show w - 8 + i - (w - 8) = i by omega, inside]
    · simp [BitVec.getLsbD_of_ge byte i (by omega), show ¬ w - 8 + i < w by omega]
  rw [serial_place poly register (by omega), length, place_msbFirst byte wide, shift_eight poly _ wide,
    BitVec.shiftLeft_xor_distrib, shiftLeft_gone _ wide, BitVec.xor_zero, BitVec.ushiftRight_xor_distrib, back]

theorem msbFirst_reverse (byte : BitVec 8) : msbFirst byte.reverse = lsbFirst byte := by
  simp [msbFirst, lsbFirst, BitVec.getMsbD_reverse]

theorem shift_index (poly : BitVec w) (index : BitVec 8) (wide : 8 ≤ w) :
    (shift poly)^[w] (index.setWidth w) = (shift poly)^[8] (index.setWidth w <<< (w - 8)) := by
  have low : ∀ i, i < w - 8 → (index.setWidth w).getMsbD i = false := by
    intro i below
    rw [BitVec.getMsbD_setWidth]
    simp
    omega
  have steps : (shift poly)^[w] = (shift poly)^[8 + (w - 8)] := by
    congr
    omega
  rw [steps, Function.iterate_add_apply, shift_iterate_low poly low]

end Crc
