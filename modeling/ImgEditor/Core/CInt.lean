import Mathlib.Tactic.Ring

namespace ImgEditor

def toInt32 (x : Int) : Int := x.bmod (2^32)

def toSizeT (x : Int) : Nat := (x % 2^64).toNat

def alignedLength (len align : Nat) : Nat := (len + align - 1) / align * align

def alignedLength32 (len align : Nat) : Nat := (len + align - 1) % 2 ^ 32 / align * align

theorem toInt32_of_lt {n : Nat} (bound : n < 2^31) : toInt32 n = n := by
  unfold toInt32
  rw [Int.bmod_def]
  omega

theorem toInt32_add (a b : Int) : toInt32 (toInt32 a + b) = toInt32 (a + b) := Int.bmod_add_bmod

theorem toSizeT_natCast {n : Nat} (bound : n < 2^64) : toSizeT n = n := by
  unfold toSizeT
  omega

end ImgEditor
