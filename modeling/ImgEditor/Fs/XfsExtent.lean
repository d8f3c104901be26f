import Mathlib.Data.Nat.Bits
import Mathlib.Tactic.Ring

namespace ImgEditor

def BMBT_STARTOFF_BITLEN : Nat := 54
def BMBT_BLOCKCOUNT_BITLEN : Nat := 21
def BMBT_STARTOFF_MASK : BitVec 64 := 1#64 <<< BMBT_STARTOFF_BITLEN - 1#64
def BMBT_BLOCKCOUNT_MASK : BitVec 64 := 1#64 <<< BMBT_BLOCKCOUNT_BITLEN - 1#64

/-- The words of a record, in the order of the host. -/
structure XfsBmbtRec where
  l0 : BitVec 64
  l1 : BitVec 64
deriving DecidableEq

structure XfsBmbtIrec where
  brStartoff : BitVec 64
  brStartblock : BitVec 64
  brBlockcount : BitVec 32
  brState : Bool
deriving DecidableEq

def xfsBmbtRecUnpack (rec : XfsBmbtRec) : XfsBmbtIrec where
  brState := rec.l0 &&& 1#64 <<< 63 ≠ 0
  brStartoff := (rec.l0 >>> 9) &&& BMBT_STARTOFF_MASK
  brStartblock := (rec.l0 &&& 0x1f#64) <<< 43 ||| rec.l1 >>> 21
  brBlockcount := (rec.l1 &&& BMBT_BLOCKCOUNT_MASK).setWidth 32

/-! ## The layout -/

/-- An extent, with fields of the widths of the record. -/
@[ext] structure XfsExtent where
  state : Bool
  startoff : BitVec 54
  startblock : BitVec 52
  blockcount : BitVec 21

namespace XfsExtent

def unpack (record : BitVec 128) : XfsExtent :=
  ⟨record.getLsbD 127, record.extractLsb' 73 54, record.extractLsb' 21 52, record.extractLsb' 0 21⟩

def pack (extent : XfsExtent) : BitVec 128 :=
  BitVec.ofBool extent.state ++ extent.startoff ++ extent.startblock ++ extent.blockcount

def irec (extent : XfsExtent) : XfsBmbtIrec :=
  ⟨extent.startoff.setWidth 64, extent.startblock.setWidth 64, extent.blockcount.setWidth 32, extent.state⟩

theorem unpack_pack (extent : XfsExtent) : unpack extent.pack = extent := by
  apply XfsExtent.ext
  · simp only [unpack, pack, BitVec.getLsbD_append]
    simp
  · apply BitVec.eq_of_getLsbD_eq
    intro i inside
    simp only [unpack, pack, BitVec.getLsbD_extractLsb', BitVec.getLsbD_append]
    grind
  · apply BitVec.eq_of_getLsbD_eq
    intro i inside
    simp only [unpack, pack, BitVec.getLsbD_extractLsb', BitVec.getLsbD_append]
    grind
  · exact BitVec.extractLsb'_append_eq_right

end XfsExtent

def XfsBmbtRec.number (rec : XfsBmbtRec) : BitVec 128 := rec.l0 ++ rec.l1

/-- The record is unpacked to its fields, and these are the ones that were packed. -/
structure XfsRecRight (rec : XfsBmbtRec) : Prop where
  unpacks : xfsBmbtRecUnpack rec = (XfsExtent.unpack rec.number).irec
  packed : ∀ extent, XfsExtent.pack extent = rec.number → xfsBmbtRecUnpack rec = extent.irec

def lowMask (n : Nat) : BitVec 64 := 1#64 <<< n - 1#64

theorem lowMask_toNat {n : Nat} (low : n < 64) : (lowMask n).toNat = 2 ^ n - 1 := by
  have power : 2 ^ n < 2 ^ 64 := Nat.pow_lt_pow_right (by decide) low
  have least : 1 ≤ 2 ^ n := Nat.one_le_two_pow
  rw [lowMask, BitVec.toNat_sub, BitVec.toNat_shiftLeft, BitVec.toNat_ofNat, Nat.mod_eq_of_lt (by decide : 1 < 2 ^ 64),
    Nat.one_shiftLeft, Nat.mod_eq_of_lt power]
  omega

theorem getLsbD_lowMask {n : Nat} (low : n < 64) (i : Nat) : (lowMask n).getLsbD i = decide (i < n) := by
  rw [BitVec.getLsbD, lowMask_toNat low, Nat.testBit_two_pow_sub_one]

section Unpack

variable (rec : XfsBmbtRec)

theorem brState_eq : (xfsBmbtRecUnpack rec).brState = rec.number.getLsbD 127 := by
  have sign : 1#64 <<< 63 = BitVec.twoPow 64 63 := by decide
  simp only [xfsBmbtRecUnpack, XfsBmbtRec.number, sign, BitVec.and_twoPow, BitVec.getLsbD_append]
  cases rec.l0.getLsbD 63 <;> simp

theorem brStartoff_eq : (xfsBmbtRecUnpack rec).brStartoff = (rec.number.extractLsb' 73 54).setWidth 64 := by
  have mask : BMBT_STARTOFF_MASK = lowMask 54 := rfl
  apply BitVec.eq_of_getLsbD_eq
  intro i inside
  simp only [xfsBmbtRecUnpack, XfsBmbtRec.number, mask, BitVec.getLsbD_and, getLsbD_lowMask (by decide : 54 < 64),
    BitVec.getLsbD_setWidth, BitVec.getLsbD_extractLsb', BitVec.getLsbD_append, BitVec.getLsbD_ushiftRight]
  grind

theorem brBlockcount_eq : (xfsBmbtRecUnpack rec).brBlockcount = (rec.number.extractLsb' 0 21).setWidth 32 := by
  have mask : BMBT_BLOCKCOUNT_MASK = lowMask 21 := rfl
  apply BitVec.eq_of_getLsbD_eq
  intro i inside
  simp only [xfsBmbtRecUnpack, XfsBmbtRec.number, mask, BitVec.getLsbD_and, getLsbD_lowMask (by decide : 21 < 64),
    BitVec.getLsbD_setWidth, BitVec.getLsbD_extractLsb', BitVec.getLsbD_append]
  grind

/-- The upper four bits of the start block are lost. -/
theorem brStartblock_eq :
    (xfsBmbtRecUnpack rec).brStartblock = (rec.number.extractLsb' 21 52).setWidth 64 &&& lowMask 48 := by
  have mask : 0x1f#64 = lowMask 5 := by decide
  apply BitVec.eq_of_getLsbD_eq
  intro i inside
  simp only [xfsBmbtRecUnpack, XfsBmbtRec.number, mask, BitVec.getLsbD_and, getLsbD_lowMask (by decide : 5 < 64),
    getLsbD_lowMask (by decide : 48 < 64), BitVec.getLsbD_setWidth, BitVec.getLsbD_or, BitVec.getLsbD_shiftLeft,
    BitVec.getLsbD_extractLsb', BitVec.getLsbD_append, BitVec.getLsbD_ushiftRight]
  grind

end Unpack

/-- `br_startblock` takes five bits of the first word, where the record has nine. -/
theorem xfsBmbtRecUnpack_right_iff (rec : XfsBmbtRec) :
    XfsRecRight rec ↔ (XfsExtent.unpack rec.number).startblock.toNat < 2 ^ 48 := by
  have bits : (XfsExtent.unpack rec.number).startblock = rec.number.extractLsb' 21 52 := rfl
  have masked : ((xfsBmbtRecUnpack rec).brStartblock).toNat = (rec.number.extractLsb' 21 52).toNat % 2 ^ 48 := by
    have whole := (rec.number.extractLsb' 21 52).isLt
    rw [brStartblock_eq, BitVec.toNat_and, lowMask_toNat (by decide), Nat.and_two_pow_sub_one_eq_mod, BitVec.toNat_setWidth,
      Nat.mod_eq_of_lt (by omega : _ < 2 ^ 64)]
  have same : xfsBmbtRecUnpack rec = (XfsExtent.unpack rec.number).irec ↔
      (xfsBmbtRecUnpack rec).brStartblock = (rec.number.extractLsb' 21 52).setWidth 64 := by
    constructor
    · intro unpacked
      rw [unpacked]
      rfl
    · intro startblock
      calc xfsBmbtRecUnpack rec
          = ⟨(xfsBmbtRecUnpack rec).brStartoff, (xfsBmbtRecUnpack rec).brStartblock, (xfsBmbtRecUnpack rec).brBlockcount,
              (xfsBmbtRecUnpack rec).brState⟩ := rfl
        _ = _ := by
          rw [brStartoff_eq, startblock, brBlockcount_eq, brState_eq]
          rfl
  have fits : (xfsBmbtRecUnpack rec).brStartblock = (rec.number.extractLsb' 21 52).setWidth 64 ↔
      (rec.number.extractLsb' 21 52).toNat < 2 ^ 48 := by
    have whole := (rec.number.extractLsb' 21 52).isLt
    rw [← BitVec.toNat_inj, masked, BitVec.toNat_setWidth, Nat.mod_eq_of_lt (by omega : _ < 2 ^ 64)]
    omega
  rw [bits, ← fits, ← same]
  constructor
  · intro right
    exact right.unpacks
  · intro unpacked
    refine ⟨unpacked, ?_⟩
    intro extent packed
    rw [unpacked, ← packed, XfsExtent.unpack_pack]

/-- The extent of one block at block 2^48. -/
theorem xfsBmbtRecUnpack_far : ¬ XfsRecRight ⟨0x20, 1⟩ := by
  intro right
  exact absurd right.unpacks (by decide)

end ImgEditor
