import ImgEditor.Core.BitmaskScan

namespace ImgEditor

open Storage

/-- `alloc_bitmask`. None where the sum in `aligned_bytes` wraps: such a bitmask has no buffer, and all its bits are
outside of it. -/
def bitmaskAlloc (totalBits : BitVec 64) : Option Bitmask :=
  if (totalBits + 7).toNat / 8 = alignedBytes totalBits.toNat then some (allocBitmask totalBits.toNat) else none

namespace Bitmask

theorem memcpy_bufsize (b : Bitmask) {src : List Byte} (fits : ¬b.buffer.length < src.length) :
    (src ++ b.buffer.drop src.length).length = alignedBytes b.totalBits := by
  have old := b.bufsize
  rw [List.length_append, List.length_drop]
  omega

def memcpy (b : Bitmask) (src : List Byte) : Int × Bitmask :=
  if fits : b.buffer.length < src.length then (-1, b)
  else (0, { b with
    buffer := src ++ b.buffer.drop src.length
    bufsize := b.memcpy_bufsize fits })

def writeBitsSizeT (b : Bitmask) (fromBit : Nat) (v : Bool) : Nat → Int × Bitmask
  | 0 => (0, b)
  | bits + 1 =>
    let (ret, b) := b.writeBitsSizeT fromBit v bits
    let (r, b) := b.write ((fromBit + bits) % 2^64) v
    (toInt32 (ret + r), b)

/-- `bitmask_unset_bits`, as it stands. -/
def unsetBits (b : Bitmask) (fromBit bits : Nat) : Int × Bitmask := b.writeBitsSizeT fromBit true bits

/-- `bitmask_xor`; the result of `none` is `NULL`. -/
def xor (a b : Bitmask) : Option Bitmask :=
  if same : a.totalBits = b.totalBits then
    some { a with
      buffer := a.buffer.zipWith (· ^^^ ·) b.buffer
      bufsize := by
        rw [List.length_zipWith, a.bufsize, b.bufsize, same, Nat.min_self] }
  else none

end Bitmask

/-- A call with the bitmask as its first argument. -/
inductive BitmaskOp where
  | write (bitIdx : BitVec 64) (v : Int)
  | set (bitIdx : BitVec 64)
  | unset (bitIdx : BitVec 64)
  | setBits (fromBit bits : BitVec 64)
  | unsetBits (fromBit bits : BitVec 64)
  | not
  | memset (c : Byte)
  | memcpy (src : List Byte)
  | memcpyLsbfirst (src : List Byte)
  | xor (other : Bitmask)

namespace BitmaskOp

/-- What the call returns, and the bitmask after it. After `bitmask_xor` that is the result, with -1 for `NULL`. -/
def run (b : Bitmask) : BitmaskOp → Int × Bitmask
  | write bitIdx v => b.write bitIdx.toNat (v ≠ 0)
  | set bitIdx => b.write bitIdx.toNat true
  | unset bitIdx => b.write bitIdx.toNat false
  | setBits fromBit bits => b.writeBitsSizeT fromBit.toNat true bits.toNat
  | unsetBits fromBit bits => b.unsetBits fromBit.toNat bits.toNat
  | not => (0, b.not)
  | memset c => (0, b.memset c)
  | memcpy src => b.memcpy src
  | memcpyLsbfirst src => b.memcpyLsbfirst src
  | xor other =>
    match b.xor other with
    | none => (-1, b)
    | some result => (0, result)

/-! ## On sets of indices -/

/-- The indices that a call gives a value. A source that is too long, and a bitmask of another size, give none. -/
def Assigns (total : Nat) : BitmaskOp → Nat → Prop
  | write bitIdx _, k | set bitIdx, k | unset bitIdx, k => k = bitIdx.toNat
  | setBits fromBit bits, k | unsetBits fromBit bits, k => fromBit.toNat ≤ k ∧ k < fromBit.toNat + bits.toNat
  | memcpy src, k | memcpyLsbfirst src, k => src.length ≤ alignedBytes total ∧ k < 8 * src.length
  | xor other, _ => other.totalBits = total
  | not, _ | memset _, _ => True

def value (S : Nat → Prop) : BitmaskOp → Nat → Prop
  | write _ v, _ => v ≠ 0
  | set _, _ | setBits _ _, _ => True
  | unset _, _ | unsetBits _ _, _ => False
  | not, k => ¬ S k
  | memset c, k => c.getLsbD (7 - k % 8) = true
  | memcpy src, k => (src.getD (k / 8) 0#8).getLsbD (7 - k % 8) = true
  | memcpyLsbfirst src, k => (src.getD (k / 8) 0#8).getLsbD (k % 8) = true
  | xor other, k => ¬ (S k ↔ other.bit k = true)

def after (total : Nat) (S : Nat → Prop) (op : BitmaskOp) (k : Nat) : Prop :=
  (op.Assigns total k → op.value S k) ∧ (¬ op.Assigns total k → S k)

def Fails (total : Nat) : BitmaskOp → Prop
  | memcpy src | memcpyLsbfirst src => alignedBytes total < src.length
  | xor other => other.totalBits ≠ total
  | not | memset _ => False
  | op => ∃ k, op.Assigns total k ∧ total ≤ k

structure Reads (b : Bitmask) (total : Nat) (S : Nat → Prop) : Prop where
  size : b.totalBits = total
  one : ∀ k < total, S k → b.get k = 1
  zero : ∀ k < total, ¬ S k → b.get k = 0

/-- Before each call and after the last one, the bitmask tells the set; and the calls report their failures. -/
def RunRight (total : Nat) : List BitmaskOp → Bitmask → (Nat → Prop) → Prop
  | [], b, S => Reads b total S
  | op :: ops, b, S =>
    Reads b total S ∧ ((op.run b).1 < 0 ↔ op.Fails total) ∧ RunRight total ops (op.run b).2 (op.after total S)

/-! ## Where the code does so -/

def outside (total fromBit bits : Nat) : Nat := (List.range bits).countP fun i => total ≤ (fromBit + i) % 2^64

/-- A range that ends behind 2^64 goes on from 0; the bits there are set already. The count of failures is a negative
`int`, if there are any. -/
structure RangeFits (total : Nat) (S : Nat → Prop) (fromBit bits : Nat) : Prop where
  wraps : ∀ k < total, k + 2^64 < fromBit + bits → S k
  counts : outside total fromBit bits = 0 ∨
    0 < outside total fromBit bits % 2^32 ∧ outside total fromBit bits % 2^32 ≤ 2^31

/-- `bitmask_unset_bits` sets the bits. -/
def Fits (total : Nat) (S : Nat → Prop) : BitmaskOp → Prop
  | setBits fromBit bits => RangeFits total S fromBit.toNat bits.toNat
  | unsetBits fromBit bits => RangeFits total S fromBit.toNat bits.toNat ∧ (bits ≠ 0 → total ≤ fromBit.toNat)
  | _ => True

def RunFits (total : Nat) : List BitmaskOp → (Nat → Prop) → Prop
  | [], _ => True
  | op :: ops, S => op.Fits total S ∧ RunFits total ops (op.after total S)

end BitmaskOp

def BitmaskRight (totalBits : BitVec 64) (ops : List BitmaskOp) : Prop :=
  ∃ b, bitmaskAlloc totalBits = some b ∧ BitmaskOp.RunRight totalBits.toNat ops b fun _ => False

namespace Bitmask

theorem memcpy_bit (b : Bitmask) {src : List Byte} (fits : src.length ≤ b.buffer.length) (k : Nat) :
    (b.memcpy src).2.bit k = if k < 8 * src.length then (src.getD (k / 8) 0#8).getLsbD (7 - k % 8) else b.bit k := by
  rw [memcpy, dif_neg (Nat.not_lt.mpr fits), bit, bit]
  dsimp only
  split
  · rw [List.getD_append _ _ _ _ (by omega)]
  · rw [List.getD_append_right _ _ _ _ (by omega), List.getD_eq_getElem?_getD, List.getElem?_drop,
      Nat.add_sub_cancel' (by omega), List.getD_eq_getElem?_getD]

theorem memcpyLsbfirst_bit_behind (b : Bitmask) {src : List Byte} (fits : src.length ≤ b.buffer.length) {k : Nat}
    (behind : 8 * src.length ≤ k) : (b.memcpyLsbfirst src).2.bit k = b.bit k := by
  rw [memcpyLsbfirst, dif_neg (Nat.not_lt.mpr fits), bit, bit]
  dsimp only
  rw [List.getD_append_right _ _ _ _ (by rw [List.length_map]; omega), List.getD_eq_getElem?_getD, List.getElem?_drop,
    List.length_map, Nat.add_sub_cancel' (by omega), List.getD_eq_getElem?_getD]

theorem memset_bit_eq (b : Bitmask) (c : Byte) {k : Nat} (inside : k < b.totalBits) :
    (b.memset c).bit k = c.getLsbD (7 - k % 8) := by
  have size := b.bufsize
  unfold alignedBytes at size
  rw [bit, memset, List.getD_eq_getElem?_getD, List.getElem?_replicate, if_pos (by omega), Option.getD_some]

theorem xor_totalBits {a b result : Bitmask} (made : a.xor b = some result) : result.totalBits = a.totalBits := by
  unfold xor at made
  split at made
  · rw [← Option.some.inj made]
  · cases made

theorem xor_bit {a b result : Bitmask} (made : a.xor b = some result) {k : Nat} (inside : k < a.totalBits) :
    result.bit k = (a.bit k ^^ b.bit k) := by
  unfold xor at made
  split at made
  · rename_i same
    obtain rfl := Option.some.inj made
    have size := a.bufsize
    have other := b.bufsize
    unfold alignedBytes at size other
    simp only [bit, List.getD_eq_getElem?_getD, List.getElem?_zipWith]
    rw [List.getElem?_eq_getElem (by omega : k / 8 < a.buffer.length), List.getElem?_eq_getElem (by omega : k / 8 < b.buffer.length)]
    exact BitVec.getLsbD_xor
  · cases made

section Range

variable (b : Bitmask) (fromBit : Nat) (v : Bool)

@[simp] theorem writeBitsSizeT_totalBits (bits : Nat) : (b.writeBitsSizeT fromBit v bits).2.totalBits = b.totalBits := by
  induction bits with
  | zero => rfl
  | succ bits ih =>
    rw [writeBitsSizeT]
    exact (write_totalBits _ _ _).trans ih

theorem writeBitsSizeT_bit (bits : Nat) {k : Nat} (inside : k < b.totalBits) :
    (b.writeBitsSizeT fromBit v bits).2.bit k = if ∃ i < bits, (fromBit + i) % 2^64 = k then v else b.bit k := by
  induction bits with
  | zero =>
    rw [if_neg (by rintro ⟨_, none, _⟩; exact absurd none (Nat.not_lt_zero _))]
    rfl
  | succ bits ih =>
    rw [writeBitsSizeT]
    dsimp only
    rw [write_bit, writeBitsSizeT_totalBits, ih]
    by_cases last : (fromBit + bits) % 2^64 = k
    · rw [if_pos ⟨last.symm, by omega⟩, if_pos ⟨bits, Nat.lt_succ_self _, last⟩]
    · rw [if_neg fun here => last here.1.symm]
      have same : (∃ i < bits + 1, (fromBit + i) % 2^64 = k) ↔ ∃ i < bits, (fromBit + i) % 2^64 = k := by
        constructor
        · rintro ⟨i, small, there⟩
          refine ⟨i, Nat.lt_of_le_of_ne (Nat.le_of_lt_succ small) ?_, there⟩
          rintro rfl
          exact last there
        · rintro ⟨i, small, there⟩
          exact ⟨i, Nat.lt_succ_of_lt small, there⟩
      simp only [same]

theorem writeBitsSizeT_ret (bits : Nat) :
    (b.writeBitsSizeT fromBit v bits).1 = toInt32 (-(BitmaskOp.outside b.totalBits fromBit bits : Nat)) := by
  induction bits with
  | zero => rfl
  | succ bits ih =>
    rw [writeBitsSizeT, BitmaskOp.outside, List.range_succ, List.countP_append, ← BitmaskOp.outside, List.countP_singleton]
    dsimp only
    rw [ih, write_ret, writeBitsSizeT_totalBits, toInt32_add]
    congr 1
    split
    · rename_i out
      rw [if_pos (by simpa using out)]
      omega
    · rename_i in_
      rw [if_neg (by simpa using in_)]
      omega

end Range

end Bitmask

namespace BitmaskOp

variable {total : Nat} {S : Nat → Prop} {b : Bitmask}

theorem reaches_iff {fromBit bits k : Nat} (start : fromBit < 2^64) (short : bits < 2^64) (small : k < 2^64) :
    (∃ i < bits, (fromBit + i) % 2^64 = k) ↔ fromBit ≤ k ∧ k < fromBit + bits ∨ k + 2^64 < fromBit + bits := by
  constructor
  · rintro ⟨i, less, there⟩
    omega
  · rintro (⟨lower, upper⟩ | wraps)
    · exact ⟨k - fromBit, by omega, by omega⟩
    · exact ⟨k + 2^64 - fromBit, by omega, by omega⟩

theorem outside_pos_iff {fromBit bits : Nat} (start : fromBit < 2^64) (short : bits < 2^64) (size : total < 2^64) :
    0 < outside total fromBit bits ↔ ∃ k, (fromBit ≤ k ∧ k < fromBit + bits) ∧ total ≤ k := by
  rw [outside, List.countP_pos_iff]
  simp only [List.mem_range, decide_eq_true_eq]
  constructor
  · rintro ⟨i, less, out⟩
    exact ⟨fromBit + i, ⟨by omega, by omega⟩, by omega⟩
  · rintro ⟨k, ⟨lower, upper⟩, out⟩
    by_cases first : total ≤ fromBit
    · exact ⟨0, by omega, by omega⟩
    · exact ⟨total - fromBit, by omega, by omega⟩

theorem counts_iff (c : Nat) : (toInt32 (-(c : Int)) < 0 ↔ 0 < c) ↔ c = 0 ∨ 0 < c % 2^32 ∧ c % 2^32 ≤ 2^31 := by
  unfold toInt32
  rw [Int.bmod_def]
  omega

def StepRight (total : Nat) (S : Nat → Prop) (b : Bitmask) (op : BitmaskOp) : Prop :=
  (op.run b).2.Marks total (op.after total S) ∧ ((op.run b).1 < 0 ↔ op.Fails total)

theorem write_step (marks : b.Marks total S) (i : Nat) {v : Bool} {P : Prop} (means : v = true ↔ P) :
    (b.write i v).2.Marks total (fun k => (k = i → P) ∧ (¬ k = i → S k)) ∧
      ((b.write i v).1 < 0 ↔ ∃ k, k = i ∧ total ≤ k) := by
  constructor
  · refine ⟨(b.write_totalBits i v).trans marks.size, ?_⟩
    intro k inside
    have old := marks.bits k inside
    rw [Bitmask.write_bit, marks.size]
    by_cases here : k = i
    · rw [if_pos ⟨here, by omega⟩, means]
      exact ⟨fun set => ⟨fun _ => set, fun other => absurd here other⟩, fun both => both.1 here⟩
    · rw [if_neg fun both => here both.1, old]
      exact ⟨fun set => ⟨fun same => absurd same here, fun _ => set⟩, fun both => both.2 here⟩
  · rw [Bitmask.write_ret, marks.size]
    constructor
    · intro negative
      refine ⟨i, rfl, ?_⟩
      by_contra inside
      rw [if_neg inside] at negative
      exact absurd negative (by decide)
    · rintro ⟨_, rfl, out⟩
      rw [if_pos out]
      decide

theorem range_step (marks : b.Marks total S) (size : total < 2^64) {fromBit bits : Nat} (start : fromBit < 2^64)
    (short : bits < 2^64) (P : Prop) :
    (b.writeBitsSizeT fromBit true bits).2.Marks total (fun k =>
        (fromBit ≤ k ∧ k < fromBit + bits → P) ∧ (¬ (fromBit ≤ k ∧ k < fromBit + bits) → S k)) ∧
      ((b.writeBitsSizeT fromBit true bits).1 < 0 ↔ ∃ k, (fromBit ≤ k ∧ k < fromBit + bits) ∧ total ≤ k) ↔
      RangeFits total S fromBit bits ∧ (bits ≠ 0 → fromBit < total → P) := by
  have ret : ((b.writeBitsSizeT fromBit true bits).1 < 0 ↔ ∃ k, (fromBit ≤ k ∧ k < fromBit + bits) ∧ total ≤ k) ↔
      (outside total fromBit bits = 0 ∨
        0 < outside total fromBit bits % 2^32 ∧ outside total fromBit bits % 2^32 ≤ 2^31) := by
    rw [← counts_iff, ← outside_pos_iff start short size, Bitmask.writeBitsSizeT_ret, marks.size]
  have bits_ : ∀ k < total, (b.writeBitsSizeT fromBit true bits).2.bit k = true ↔
      (fromBit ≤ k ∧ k < fromBit + bits ∨ k + 2^64 < fromBit + bits) ∨ S k := by
    intro k inside
    rw [Bitmask.writeBitsSizeT_bit _ _ _ _ (by rw [marks.size]; exact inside), ← marks.bits k inside,
      ← reaches_iff start short (by omega)]
    split
    · rename_i reached
      exact iff_of_true rfl (.inl reached)
    · rename_i other
      rw [or_iff_right other]
  rw [ret]
  constructor
  · rintro ⟨after, counts⟩
    refine ⟨⟨?_, counts⟩, ?_⟩
    · intro k inside wraps
      have set := (bits_ k inside).mpr (.inl (.inr wraps))
      exact ((after.bits k inside).mp set).2 (by omega)
    · intro some_ inside
      have set := (bits_ fromBit inside).mpr (.inl (.inl ⟨Nat.le_refl _, by omega⟩))
      exact ((after.bits fromBit inside).mp set).1 ⟨Nat.le_refl _, by omega⟩
  · rintro ⟨fits, unset⟩
    refine ⟨⟨(b.writeBitsSizeT_totalBits fromBit true bits).trans marks.size, ?_⟩, fits.counts⟩
    intro k inside
    rw [bits_ k inside]
    constructor
    · intro set
      refine ⟨fun named => unset (by omega) (by omega), ?_⟩
      intro other
      rcases set with (named | wraps) | old
      · exact absurd named other
      · exact fits.wraps k inside wraps
      · exact old
    · rintro ⟨_, old⟩
      by_cases named : fromBit ≤ k ∧ k < fromBit + bits
      · exact .inl (.inl named)
      · exact .inr (old named)

theorem copy_step (marks : b.Marks total S) {src : List Byte} {copied : Int × Bitmask} {bit : Nat → Bool}
    (long : alignedBytes total < src.length → copied = (-1, b))
    (ret : src.length ≤ alignedBytes total → copied.1 = 0 ∧ copied.2.totalBits = total)
    (value : src.length ≤ alignedBytes total → ∀ k, copied.2.bit k = if k < 8 * src.length then bit k else b.bit k) :
    copied.2.Marks total (fun k => (src.length ≤ alignedBytes total ∧ k < 8 * src.length → bit k = true) ∧
        (¬ (src.length ≤ alignedBytes total ∧ k < 8 * src.length) → S k)) ∧
      (copied.1 < 0 ↔ alignedBytes total < src.length) := by
  by_cases fits : src.length ≤ alignedBytes total
  · obtain ⟨zero, size⟩ := ret fits
    rw [zero]
    refine ⟨⟨size, ?_⟩, iff_of_false (by decide) (Nat.not_lt.mpr fits)⟩
    intro k inside
    rw [value fits k]
    split
    · rename_i early
      exact ⟨fun set => ⟨fun _ => set, fun other => absurd ⟨fits, early⟩ other⟩, fun both => both.1 ⟨fits, early⟩⟩
    · rename_i behind
      rw [marks.bits k inside]
      exact ⟨fun set => ⟨fun here => absurd here.2 behind, fun _ => set⟩, fun both => both.2 fun here => behind here.2⟩
  · rw [long (Nat.lt_of_not_le fits)]
    refine ⟨marks.congr ?_, iff_of_true (Int.negSucc_lt_zero 0) (Nat.lt_of_not_le fits)⟩
    intro k _
    exact ⟨fun set => ⟨fun here => absurd here.1 fits, fun _ => set⟩, fun both => both.2 fun here => fits here.1⟩

theorem all_step {made : Bitmask} {value : Nat → Prop} (size : made.totalBits = total)
    (bits : ∀ k < total, made.bit k = true ↔ value k) :
    made.Marks total (fun k => (True → value k) ∧ (¬ True → S k)) ∧ ((0 : Int) < 0 ↔ False) := by
  refine ⟨⟨size, ?_⟩, iff_of_false (by decide) id⟩
  intro k inside
  rw [bits k inside]
  exact ⟨fun set => ⟨fun _ => set, fun other => absurd trivial other⟩, fun both => both.1 trivial⟩

theorem xor_step (marks : b.Marks total S) (other : Bitmask) : (xor other).StepRight total S b := by
  by_cases same : b.totalBits = other.totalBits
  · obtain ⟨result, made⟩ : ∃ result, b.xor other = some result := ⟨_, dif_pos same⟩
    have ran : (xor other).run b = (0, result) := by simp only [run, made]
    have size : other.totalBits = total := same.symm.trans marks.size
    rw [StepRight, ran]
    refine ⟨⟨(Bitmask.xor_totalBits made).trans marks.size, ?_⟩, iff_of_false (Int.lt_irrefl 0) fun differs => differs size⟩
    intro k inside
    have old := marks.bits k inside
    rw [Bitmask.xor_bit made (by rw [marks.size]; exact inside)]
    constructor
    · intro set
      refine ⟨fun _ agree => ?_, fun out => absurd size out⟩
      rw [← old] at agree
      cases here : b.bit k <;> simp_all
    · intro both
      have differ : ¬ (S k ↔ other.bit k = true) := both.1 size
      rw [← old] at differ
      cases here : b.bit k <;> simp_all
  · have ran : (xor other).run b = (-1, b) := by
      have null : b.xor other = none := dif_neg same
      simp only [run, null]
    have size : other.totalBits ≠ total := fun size => same (marks.size.trans size.symm)
    rw [StepRight, ran]
    refine ⟨marks.congr fun k _ => ?_, iff_of_true (Int.negSucc_lt_zero 0) size⟩
    exact ⟨fun set => ⟨fun here => absurd here size, fun _ => set⟩, fun both => both.2 size⟩

theorem step_iff (marks : b.Marks total S) (size : total < 2^64) (op : BitmaskOp) :
    op.StepRight total S b ↔ op.Fits total S := by
  have length : b.buffer.length = alignedBytes total := by rw [b.bufsize, marks.size]
  cases op with
  | write bitIdx v => exact iff_of_true (write_step marks _ (by simp)) trivial
  | set bitIdx => exact iff_of_true (write_step marks _ (by simp)) trivial
  | unset bitIdx => exact iff_of_true (write_step marks _ (by simp)) trivial
  | setBits fromBit bits =>
    refine (range_step marks size fromBit.isLt bits.isLt True).trans ?_
    exact and_iff_left fun _ _ => trivial
  | unsetBits fromBit bits =>
    refine (range_step marks size fromBit.isLt bits.isLt False).trans (and_congr_right fun _ => ?_)
    have zero : bits.toNat ≠ 0 ↔ bits ≠ 0 := not_congr ⟨fun zero => BitVec.eq_of_toNat_eq zero, fun zero => congrArg _ zero⟩
    rw [zero]
    exact imp_congr_right fun _ => Nat.not_lt
  | not =>
    refine iff_of_true (all_step marks.size ?_) trivial
    intro k inside
    show b.not.bit k = true ↔ ¬ S k
    rw [b.not_bit (by rw [marks.size]; exact inside), ← marks.bits k inside, Bool.not_eq_true']
    exact (Bool.not_eq_true _).symm.to_iff
  | memset c =>
    refine iff_of_true (all_step marks.size ?_) trivial
    intro k inside
    show (b.memset c).bit k = true ↔ c.getLsbD (7 - k % 8) = true
    rw [b.memset_bit_eq c (by rw [marks.size]; exact inside)]
  | memcpy src =>
    refine iff_of_true (copy_step marks ?_ ?_ ?_) trivial
    · intro long
      exact dif_pos (by omega)
    · intro fits
      rw [run, Bitmask.memcpy, dif_neg (by omega)]
      exact ⟨rfl, marks.size⟩
    · intro fits
      exact b.memcpy_bit (by omega)
  | memcpyLsbfirst src =>
    refine iff_of_true (copy_step marks ?_ ?_ ?_) trivial
    · intro long
      exact dif_pos (by omega)
    · intro fits
      rw [run, Bitmask.memcpyLsbfirst, dif_neg (by omega)]
      exact ⟨rfl, marks.size⟩
    · intro fits k
      split
      · rename_i early
        exact b.memcpyLsbfirst_bit (by omega) early
      · rename_i behind
        exact b.memcpyLsbfirst_bit_behind (by omega) (Nat.le_of_not_lt behind)
  | xor other => exact iff_of_true (xor_step marks other) trivial

theorem reads_iff (b : Bitmask) (total : Nat) (S : Nat → Prop) : Reads b total S ↔ b.Marks total S := by
  constructor
  · intro reads
    refine ⟨reads.size, ?_⟩
    intro k inside
    have stored : k < b.totalBits := by
      rw [reads.size]
      exact inside
    constructor
    · intro set
      by_contra clear
      have zero := (b.get_zero_iff stored).mp (reads.zero k inside clear)
      rw [set] at zero
      exact absurd zero (by decide)
    · intro set
      exact (b.get_one_iff stored).mp (reads.one k inside set)
  · intro marks
    refine ⟨marks.size, ?_, ?_⟩
    · intro k inside set
      exact (b.get_one_iff (by rw [marks.size]; exact inside)).mpr ((marks.bits k inside).mpr set)
    · intro k inside clear
      have zero := mt (marks.bits k inside).mp clear
      exact (b.get_zero_iff (by rw [marks.size]; exact inside)).mpr (Bool.eq_false_iff.mpr zero)

theorem RunRight.marks {ops : List BitmaskOp} (right : RunRight total ops b S) : b.Marks total S := by
  cases ops with
  | nil => exact (reads_iff b total S).mp right
  | cons op ops => exact (reads_iff b total S).mp right.1

theorem run_iff (marks : b.Marks total S) (size : total < 2^64) (ops : List BitmaskOp) :
    RunRight total ops b S ↔ RunFits total ops S := by
  induction ops generalizing b S with
  | nil => exact iff_of_true ((reads_iff b total S).mpr marks) trivial
  | cons op ops ih =>
    rw [RunRight, RunFits]
    constructor
    · rintro ⟨_, ret, rest⟩
      exact ⟨(step_iff marks size op).mp ⟨rest.marks, ret⟩, (ih rest.marks).mp rest⟩
    · rintro ⟨fits, rest⟩
      obtain ⟨after, ret⟩ := (step_iff marks size op).mpr fits
      exact ⟨(reads_iff b total S).mpr marks, ret, (ih after).mpr rest⟩

end BitmaskOp

theorem bitmaskAlloc_eq (totalBits : BitVec 64) :
    bitmaskAlloc totalBits = if totalBits.toNat + 7 < 2^64 then some (allocBitmask totalBits.toNat) else none := by
  have bound := totalBits.isLt
  have sum : (totalBits + 7).toNat = (totalBits.toNat + 7) % 2^64 := BitVec.toNat_add _ _
  have same : (totalBits + 7).toNat / 8 = alignedBytes totalBits.toNat ↔ totalBits.toNat + 7 < 2^64 := by
    rw [sum, alignedBytes]
    omega
  rw [bitmaskAlloc]
  simp only [same]

/-- Every bit in range is that of the set, after any calls, as long as each of them fits. -/
theorem bitmask_right_iff (totalBits : BitVec 64) (ops : List BitmaskOp) : BitmaskRight totalBits ops ↔
    totalBits.toNat + 7 < 2^64 ∧ BitmaskOp.RunFits totalBits.toNat ops fun _ => False := by
  have empty : (allocBitmask totalBits.toNat).Marks totalBits.toNat fun _ => False := by
    refine ⟨rfl, fun k _ => ?_⟩
    rw [Bitmask.allocBitmask_bit]
    exact iff_of_false Bool.false_ne_true id
  have run := BitmaskOp.run_iff empty totalBits.isLt ops
  rw [BitmaskRight, bitmaskAlloc_eq]
  split
  · rename_i room
    rw [← run, and_iff_right room]
    constructor
    · rintro ⟨b, made, right⟩
      obtain rfl := Option.some.inj made
      exact right
    · intro right
      exact ⟨_, rfl, right⟩
  · rename_i wraps
    refine iff_of_false ?_ fun fits => wraps fits.1
    rintro ⟨b, made, _⟩
    cases made

/-- `bitmask_unset_bits` of one bit sets it. -/
theorem bitmask_unsets : ¬ BitmaskRight 8 [.unsetBits 3 1] := by
  intro right
  obtain ⟨b, made, _, _, last⟩ := right
  obtain rfl := Option.some.inj made
  have clear := last.zero 3 (by decide) (by simp [BitmaskOp.after, BitmaskOp.Assigns, BitmaskOp.value])
  exact absurd clear (by decide)

end ImgEditor
