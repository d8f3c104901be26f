import ImgEditor.Core.CInt
import ImgEditor.Storage.Bytes
import ImgEditor.Storage.Runs
import Mathlib.Tactic.IntervalCases

namespace ImgEditor

open Storage

def alignedBytes (bits : Nat) : Nat := (bits + 7) / 8

structure Bitmask where
  totalBits : Nat
  buffer : List Byte
  bufsize : buffer.length = alignedBytes totalBits

def allocBitmask (totalBits : Nat) : Bitmask where
  totalBits := totalBits
  buffer := List.replicate (alignedBytes totalBits) 0#8
  bufsize := List.length_replicate

namespace Bitmask

def memset (b : Bitmask) (c : Byte) : Bitmask where
  totalBits := b.totalBits
  buffer := List.replicate b.buffer.length c
  bufsize := by rw [List.length_replicate, b.bufsize]

def not (b : Bitmask) : Bitmask where
  totalBits := b.totalBits
  buffer := b.buffer.map (· ^^^ 0xff#8)
  bufsize := by rw [List.length_map, b.bufsize]

def write (b : Bitmask) (bitIdx : Nat) (v : Bool) : Int × Bitmask :=
  if b.totalBits ≤ bitIdx then (-1, b)
  else
    let byte := bitIdx / 8
    let value := 1#8 <<< (7 - bitIdx % 8)
    let old := b.buffer.getD byte 0#8
    (0, { b with
      buffer := b.buffer.set byte (if v then old ||| value else old &&& ~~~value)
      bufsize := by rw [List.length_set, b.bufsize] })

def set (b : Bitmask) (bitIdx : Nat) : Int × Bitmask := b.write bitIdx true

/-- `_bitmask_write_bits`: the return values are added up in an `int`. -/
def writeBits (b : Bitmask) (fromBit : Nat) (v : Bool) : Nat → Int × Bitmask
  | 0 => (0, b)
  | bits + 1 =>
    let (ret, b) := b.writeBits fromBit v bits
    let (r, b) := b.write (fromBit + bits) v
    (toInt32 (ret + r), b)

def setBits (b : Bitmask) (fromBit bits : Nat) : Int × Bitmask := b.writeBits fromBit true bits

def get (b : Bitmask) (bitIdx : Nat) : Int :=
  if b.totalBits ≤ bitIdx then -1
  else if b.buffer.getD (bitIdx / 8) 0#8 &&& (1#8 <<< (7 - bitIdx % 8)) ≠ 0 then 1 else 0

/-- The inner loop of `_bitmask_first_one`, for the remaining bits of one byte. -/
def firstOneInByte (mask : Byte) (fromBit : Nat) : Nat → Nat → Option Nat
  | 0, _ => none
  | j + 1, bit =>
    if fromBit ≤ bit ∧ mask &&& (1#8 <<< j) ≠ 0 then some bit
    else firstOneInByte mask fromBit j (bit + 1)

def firstOneLoop (b : Bitmask) (fromBit : Nat) (xor : Byte) : Nat → Nat → Int
  | 0, _ => -1
  | remain + 1, i =>
    let mask := b.buffer.getD i 0#8 ^^^ xor
    if mask = 0 then b.firstOneLoop fromBit xor remain (i + 1)
    else
      match firstOneInByte mask fromBit 8 (i * 8) with
      | none => b.firstOneLoop fromBit xor remain (i + 1)
      | some bit => if b.totalBits ≤ bit then -1 else toInt32 bit

def firstOne (b : Bitmask) (fromBit : Nat) (xor : Byte) : Int :=
  b.firstOneLoop fromBit xor (b.buffer.length - fromBit / 8) (fromBit / 8)

def nextZero (b : Bitmask) (fromBit : Nat) : Int := b.firstOne fromBit 0xff#8

def nextOne (b : Bitmask) (fromBit : Nat) : Int := b.firstOne fromBit 0#8

structure ContinueIterator where
  start : Int
  bits : Int
  stop : Int

def continueUpdate (b : Bitmask) (it : ContinueIterator) : ContinueIterator :=
  let start := b.nextOne (toSizeT it.start)
  if start < 0 then { it with start := start }
  else
    let stop := b.nextZero (toSizeT (toInt32 (start + 1)))
    if stop < 0 then ⟨start, toInt32 (b.totalBits - start), stop⟩
    else ⟨start, toInt32 (stop - start), stop⟩

def continueInit (b : Bitmask) : ContinueIterator := b.continueUpdate ⟨0, 0, 0⟩

def continueNext (b : Bitmask) (it : ContinueIterator) : ContinueIterator :=
  if it.stop < 0 then { it with start := it.stop }
  else b.continueUpdate { it with start := it.stop }

/-- The passes of `bitmask_foreach_continue`; `none` when they are more than the fuel. -/
def continueRuns (b : Bitmask) : Nat → ContinueIterator → Option (List (Nat × Nat))
  | 0, _ => none
  | fuel + 1, it =>
    if it.start < 0 then some []
    else (b.continueRuns fuel (b.continueNext it)).map ((toSizeT it.start, toSizeT it.bits) :: ·)

def foreachContinue (b : Bitmask) : Option (List (Nat × Nat)) :=
  b.continueRuns (b.totalBits + 1) b.continueInit

/-- The bit vector a bitmask stands for: index `i` is bit `7 - i % 8` of byte `i / 8`. -/
def bit (b : Bitmask) (i : Nat) : Bool := (b.buffer.getD (i / 8) 0#8).getLsbD (7 - i % 8)

theorem getLsbD_single (j k : Nat) (bound : k < 8) : (1#8 <<< j).getLsbD k = decide (k = j) := by
  rw [BitVec.getLsbD_shiftLeft, BitVec.getLsbD_one]
  by_cases equal : k = j
  · subst equal
    simp [bound]
  · simp only [bound, decide_true, Bool.true_and, equal, decide_false, Bool.and_eq_false_iff]
    by_cases below : k < j
    · left
      simp [below]
    · right
      simp
      omega

theorem and_single_bit (mask : Byte) (j : Nat) (bound : j < 8) :
    mask &&& (1#8 <<< j) ≠ 0 ↔ mask.getLsbD j = true := by
  constructor
  · intro nonzero
    by_contra clear
    apply nonzero
    apply BitVec.eq_of_getLsbD_eq
    intro i small
    rw [BitVec.getLsbD_and, getLsbD_single j i small]
    by_cases same : i = j
    · rw [same, Bool.eq_false_iff.mpr clear]
      simp
    · simp [same]
  · intro here zero
    have value : (mask &&& 1#8 <<< j).getLsbD j = false := by
      rw [zero]
      exact BitVec.getLsbD_zero
    simp only [BitVec.getLsbD_and, here, getLsbD_single j j bound, decide_true, Bool.and_true,
      Bool.true_eq_false] at value

@[simp] theorem memset_totalBits (b : Bitmask) (c : Byte) : (b.memset c).totalBits = b.totalBits :=
  rfl

@[simp] theorem write_totalBits (b : Bitmask) (i : Nat) (v : Bool) :
    (b.write i v).2.totalBits = b.totalBits := by
  unfold write
  split <;> rfl

theorem allocBitmask_bit (totalBits i : Nat) : (allocBitmask totalBits).bit i = false := by
  unfold bit allocBitmask
  have zero : (List.replicate (alignedBytes totalBits) 0#8).getD (i / 8) 0#8 = 0#8 := by
    rw [List.getD_eq_getElem?_getD, List.getElem?_replicate]
    split <;> rfl
  rw [zero]
  exact BitVec.getLsbD_zero

/-- Padding bits are inverted too, so this holds of the bits in range only. -/
theorem not_bit (b : Bitmask) {k : Nat} (inside : k < b.totalBits) : b.not.bit k = !b.bit k := by
  have bufsize := b.bufsize
  unfold alignedBytes at bufsize
  have stored : k / 8 < b.buffer.length := by omega
  have ones : ∀ j, j < 8 → (0xff#8).getLsbD j = true := by decide
  unfold bit not
  simp only [List.getD_eq_getElem?_getD, List.getElem?_map, List.getElem?_eq_getElem stored,
    Option.map_some, Option.getD_some, BitVec.getLsbD_xor, ones (7 - k % 8) (by omega), Bool.xor_true]

theorem write_ret (b : Bitmask) (i : Nat) (v : Bool) :
    (b.write i v).1 = if b.totalBits ≤ i then -1 else 0 := by
  unfold write
  split <;> rfl

theorem write_bit (b : Bitmask) (i : Nat) (v : Bool) (k : Nat) :
    (b.write i v).2.bit k = if k = i ∧ i < b.totalBits then v else b.bit k := by
  unfold write
  by_cases outside : b.totalBits ≤ i
  · rw [if_pos outside, if_neg (by omega)]
  · rw [if_neg outside]
    have bufsize := b.bufsize
    unfold alignedBytes at bufsize
    have stored : i / 8 < b.buffer.length := by omega
    unfold bit
    simp only [List.getD_eq_getElem?_getD, List.getElem?_set]
    by_cases same : i / 8 = k / 8
    · have byte : b.buffer[k / 8]? = b.buffer[i / 8]? := by rw [same]
      rw [if_pos same, if_pos stored, Option.getD_some, byte]
      generalize b.buffer[i / 8]?.getD 0#8 = old
      have small : 7 - k % 8 < 8 := by omega
      have single := getLsbD_single (7 - i % 8) (7 - k % 8) small
      by_cases equal : k = i
      · have named : k = i ∧ i < b.totalBits := ⟨equal, by omega⟩
        simp only [equal, decide_true] at single
        simp only [named, and_self, ↓reduceIte]
        cases v <;> simp only [Bool.false_eq_true, ↓reduceIte, BitVec.getLsbD_and, BitVec.getLsbD_or,
          BitVec.getLsbD_not, single, Bool.not_true, Bool.and_false, Bool.or_true]
      · have other : ¬ (k = i ∧ i < b.totalBits) := fun named => equal named.1
        have distinct : ¬ 7 - k % 8 = 7 - i % 8 := by omega
        simp only [distinct, decide_false] at single
        simp only [other, ↓reduceIte]
        cases v <;> simp only [Bool.false_eq_true, ↓reduceIte, BitVec.getLsbD_and, BitVec.getLsbD_or,
          BitVec.getLsbD_not, single, small, decide_true, Bool.not_false, Bool.and_true, Bool.or_false]
    · have other : ¬ (k = i ∧ i < b.totalBits) := by omega
      simp only [same, other, ↓reduceIte]

@[simp] theorem writeBits_totalBits (b : Bitmask) (start : Nat) (v : Bool) (count : Nat) :
    (b.writeBits start v count).2.totalBits = b.totalBits := by
  induction count with
  | zero => rfl
  | succ count ih =>
    simp only [writeBits, write_totalBits]
    exact ih

@[simp] theorem setBits_totalBits (b : Bitmask) (start count : Nat) :
    (b.setBits start count).2.totalBits = b.totalBits := b.writeBits_totalBits start true count

theorem writeBits_bit (b : Bitmask) (start : Nat) (v : Bool) (count k : Nat) :
    (b.writeBits start v count).2.bit k =
      if start ≤ k ∧ k < start + count ∧ k < b.totalBits then v else b.bit k := by
  induction count with
  | zero =>
    rw [if_neg (by omega)]
    rfl
  | succ count ih =>
    simp only [writeBits, write_bit, writeBits_totalBits, ih]
    by_cases last : k = start + count ∧ start + count < b.totalBits
    · rw [if_pos last, if_pos (by omega)]
    · rw [if_neg last]
      by_cases inside : start ≤ k ∧ k < start + count ∧ k < b.totalBits
      · rw [if_pos inside, if_pos (by omega)]
      · rw [if_neg inside, if_neg (by omega)]

theorem setBits_bit (b : Bitmask) (start count k : Nat) :
    (b.setBits start count).2.bit k =
      if start ≤ k ∧ k < start + count ∧ k < b.totalBits then true else b.bit k := b.writeBits_bit start true count k

theorem setBits_ret (b : Bitmask) (start count : Nat) (inside : start + count ≤ b.totalBits) :
    (b.setBits start count).1 = 0 := by
  induction count with
  | zero => rfl
  | succ count ih =>
    have total := b.setBits_totalBits start count
    have previous := ih (by omega)
    simp only [setBits] at previous total
    simp only [setBits, writeBits, write_ret, previous, total]
    rw [if_neg (by omega)]
    rfl

theorem firstOneInByte_spec (mask : Byte) (fromBit count bit : Nat) (width : count ≤ 8) :
    firstOneInByte mask fromBit count bit =
      nextIndex (fun k => mask.getLsbD (bit + count - 1 - k)) (bit + count) (max fromBit bit) := by
  induction count generalizing bit with
  | zero =>
    rw [firstOneInByte, nextIndex_eq_none]
    intro j lower upper
    omega
  | succ count ih =>
    simp only [firstOneInByte, and_single_bit mask count (show count < 8 by omega)]
    have shifted : bit + 1 + count = bit + (count + 1) := by omega
    by_cases here : fromBit ≤ bit ∧ mask.getLsbD count = true
    · rw [if_pos here, nextIndex_eq_some (i := bit) (by omega) (by omega)]
      · rw [show bit + (count + 1) - 1 - bit = count by omega]
        exact here.2
      · intro j lower upper
        omega
    · rw [if_neg here, ih (bit + 1) (by omega), shifted]
      refine (nextIndex_skip (by omega) ?_).symm
      intro j lower upper
      have same : j = bit := by omega
      rw [same, show bit + (count + 1) - 1 - bit = count by omega]
      exact Bool.eq_false_iff.mpr fun set => here ⟨by omega, set⟩

def searchResult (totalBits : Nat) : Option Nat → Int
  | none => -1
  | some k => if totalBits ≤ k then -1 else toInt32 k

theorem firstOneLoop_spec (b : Bitmask) (fromBit : Nat) (xor : Byte) (flip : Bool)
    (uniform : ∀ j, j < 8 → xor.getLsbD j = flip) (remain i : Nat) :
    b.firstOneLoop fromBit xor remain i =
      searchResult b.totalBits
        (nextIndex (fun k => b.bit k ^^ flip) (8 * (i + remain)) (max fromBit (8 * i))) := by
  induction remain generalizing i with
  | zero =>
    rw [firstOneLoop, nextIndex_eq_none]
    · rfl
    · intro j lower upper
      omega
  | succ remain ih =>
    have masked : ∀ k, 8 * i ≤ k → k < 8 * i + 8 →
        (b.buffer.getD i 0#8 ^^^ xor).getLsbD (8 * i + 8 - 1 - k) = (b.bit k ^^ flip) := by
      intro k lower upper
      rw [BitVec.getLsbD_xor, uniform _ (by omega), bit, show k / 8 = i by omega,
        show 8 * i + 8 - 1 - k = 7 - k % 8 by omega]
    have next : max fromBit (8 * i) ≤ max fromBit (8 * (i + 1)) := by omega
    have whole : 8 * (i + (remain + 1)) = 8 * (i + 1 + remain) := by omega
    rw [firstOneLoop]
    by_cases zero : b.buffer.getD i 0#8 ^^^ xor = 0
    · rw [if_pos zero, ih (i + 1), whole]
      rw [nextIndex_skip next]
      intro j lower upper
      have value := masked j (by omega) (by omega)
      rw [zero] at value
      rw [← value]
      exact BitVec.getLsbD_zero
    · rw [if_neg zero, firstOneInByte_spec _ _ _ _ (Nat.le_refl 8), show i * 8 = 8 * i by omega]
      cases found : nextIndex (fun k => (b.buffer.getD i 0#8 ^^^ xor).getLsbD (8 * i + 8 - 1 - k))
        (8 * i + 8) (max fromBit (8 * i)) with
      | none =>
        simp only
        rw [ih (i + 1), whole, nextIndex_skip next]
        intro j lower upper
        rw [← masked j (by omega) (by omega)]
        exact nextIndex_none found lower (by omega)
      | some k =>
        obtain ⟨lower, upper, holds, before⟩ := nextIndex_some found
        rw [nextIndex_eq_some (i := k) lower (by omega)]
        · rfl
        · rw [← masked k (by omega) upper]
          exact holds
        · intro j first last
          rw [← masked j (by omega) (by omega)]
          exact before j first last

theorem firstOne_spec (b : Bitmask) (fromBit : Nat) (xor : Byte) (flip : Bool)
    (uniform : ∀ j, j < 8 → xor.getLsbD j = flip) :
    b.firstOne fromBit xor =
      match nextIndex (fun k => b.bit k ^^ flip) b.totalBits fromBit with
      | none => -1
      | some k => toInt32 k := by
  have bufsize := b.bufsize
  unfold alignedBytes at bufsize
  rw [firstOne, firstOneLoop_spec b fromBit xor flip uniform,
    show max fromBit (8 * (fromBit / 8)) = fromBit by omega]
  cases found : nextIndex (fun k => b.bit k ^^ flip) b.totalBits fromBit with
  | none =>
    cases wider : nextIndex (fun k => b.bit k ^^ flip)
      (8 * (fromBit / 8 + (b.buffer.length - fromBit / 8))) fromBit with
    | none => rfl
    | some k =>
      obtain ⟨lower, upper, holds, _⟩ := nextIndex_some wider
      by_cases inside : k < b.totalBits
      · rw [nextIndex_none found lower inside] at holds
        contradiction
      · simp only [searchResult]
        rw [if_pos (by omega)]
  | some k =>
    obtain ⟨lower, upper, holds, before⟩ := nextIndex_some found
    rw [nextIndex_eq_some lower (by omega) holds before]
    simp only [searchResult]
    rw [if_neg (by omega)]

theorem nextOne_spec (b : Bitmask) (fromBit : Nat) :
    b.nextOne fromBit =
      match nextIndex b.bit b.totalBits fromBit with
      | none => -1
      | some k => toInt32 k := by
  have search := b.firstOne_spec fromBit 0#8 false (fun _ _ => BitVec.getLsbD_zero)
  simp only [Bool.xor_false] at search
  exact search

theorem nextZero_spec (b : Bitmask) (fromBit : Nat) :
    b.nextZero fromBit =
      match nextIndex (fun k => !b.bit k) b.totalBits fromBit with
      | none => -1
      | some k => toInt32 k := by
  have ones : ∀ j, j < 8 → (0xff#8).getLsbD j = true := by decide
  have search := b.firstOne_spec fromBit 0xff#8 true ones
  simp only [Bool.xor_true] at search
  exact search

def IntRange (b : Bitmask) : Prop := ∀ k, k < b.totalBits → b.bit k = true → k + 1 < 2^31

def runEnd (b : Bitmask) (start : Nat) : Nat :=
  (nextIndex (fun k => !b.bit k) b.totalBits (start + 1)).getD b.totalBits

/-- What the iterator holds when the search for the next run began at `lo`. -/
def IteratorAt (b : Bitmask) (it : ContinueIterator) (lo : Nat) : Prop :=
  match nextIndex b.bit b.totalBits lo with
  | none => it.start < 0
  | some k =>
    it.start = k ∧ it.bits = (b.runEnd k - k : Nat) ∧
      (it.stop = b.runEnd k ∨ it.stop < 0 ∧ b.runEnd k = b.totalBits)

theorem runEnd_spec (b : Bitmask) {k : Nat} (inside : k < b.totalBits) (set : b.bit k = true) :
    k < b.runEnd k ∧ b.runEnd k ≤ b.totalBits ∧ (∀ i, k ≤ i → i < b.runEnd k → b.bit i = true) ∧
      (b.runEnd k < b.totalBits → b.bit (b.runEnd k) = false) := by
  unfold runEnd
  cases found : nextIndex (fun k => !b.bit k) b.totalBits (k + 1) with
  | none =>
    refine ⟨inside, Nat.le_refl _, ?_, fun impossible => absurd impossible (Nat.lt_irrefl _)⟩
    intro i lower upper
    by_cases first : i = k
    · rw [first, set]
    · simpa using nextIndex_none found (by omega : k + 1 ≤ i) upper
  | some e =>
    obtain ⟨lower, upper, clear, before⟩ := nextIndex_some found
    rw [Option.getD_some]
    refine ⟨by omega, Nat.le_of_lt upper, ?_, fun _ => by simpa using clear⟩
    intro i first last
    by_cases same : i = k
    · rw [same, set]
    · simpa using before i (by omega) last

theorem continueUpdate_at (b : Bitmask) (it : ContinueIterator) (lo : Nat) (range : b.IntRange)
    (start : it.start = lo) (small : lo < 2^31) : b.IteratorAt (b.continueUpdate it) lo := by
  unfold IteratorAt continueUpdate
  rw [start, toSizeT_natCast (by omega), nextOne_spec]
  cases found : nextIndex b.bit b.totalBits lo with
  | none => simp
  | some k =>
    obtain ⟨_, inside, set, _⟩ := nextIndex_some found
    have bound := range k inside set
    obtain ⟨after, within, _, _⟩ := b.runEnd_spec inside set
    have next : toSizeT (toInt32 ((k : Int) + 1)) = k + 1 := by
      have cast : ((k : Int) + 1) = ((k + 1 : Nat) : Int) := by omega
      rw [cast, toInt32_of_lt bound, toSizeT_natCast (by omega)]
    have nonnegative : ¬ (k : Int) < 0 := by omega
    simp only [toInt32_of_lt (show k < 2^31 by omega), nonnegative, ↓reduceIte, next, nextZero_spec]
    -- the run has at least one set bit before its end, so its length is an `int` as well
    have last := range (b.runEnd k - 1) (by omega)
      ((b.runEnd_spec inside set).2.2.1 _ (by omega) (by omega))
    have width : toInt32 ((b.runEnd k : Int) - k) = (b.runEnd k - k : Nat) := by
      rw [← Int.ofNat_sub (by omega), toInt32_of_lt (by omega)]
    cases stop : nextIndex (fun k => !b.bit k) b.totalBits (k + 1) with
    | none =>
      have whole : b.runEnd k = b.totalBits := by simp [runEnd, stop]
      rw [whole] at width
      simp [whole, width]
    | some e =>
      have ends : b.runEnd k = e := by simp [runEnd, stop]
      rw [ends] at width last
      have positive : ¬ (e : Int) < 0 := by omega
      simp only [toInt32_of_lt (show e < 2^31 by omega), positive, ↓reduceIte, width, ends, true_or,
        and_self]

theorem continueInit_at (b : Bitmask) (range : b.IntRange) : b.IteratorAt b.continueInit 0 :=
  b.continueUpdate_at ⟨0, 0, 0⟩ 0 range rfl (by omega)

/-- The iterator moves from one maximal run of set bits to the next. -/
theorem continueNext_at (b : Bitmask) (it : ContinueIterator) {lo k : Nat} (range : b.IntRange)
    (found : nextIndex b.bit b.totalBits lo = some k) (here : b.IteratorAt it lo) :
    b.IteratorAt (b.continueNext it) (b.runEnd k) := by
  obtain ⟨_, inside, set, _⟩ := nextIndex_some found
  obtain ⟨after, within, value, _⟩ := b.runEnd_spec inside set
  have last := range (b.runEnd k - 1) (by omega) (value _ (by omega) (by omega))
  simp only [IteratorAt, found] at here
  obtain ⟨_, _, stop | ⟨stop, whole⟩⟩ := here
  · have nonnegative : ¬ it.stop < 0 := by omega
    unfold continueNext
    rw [if_neg nonnegative]
    exact b.continueUpdate_at _ _ range stop (by omega)
  · have exhausted : nextIndex b.bit b.totalBits (b.runEnd k) = none := by
      apply nextIndex_eq_none
      intro j lower upper
      omega
    unfold continueNext
    rw [if_pos stop]
    simp only [IteratorAt, exhausted, stop]

theorem continueRuns_spec (b : Bitmask) (range : b.IntRange) (fuel : Nat) (it : ContinueIterator) (lo : Nat)
    (within : lo ≤ b.totalBits) (enough : b.totalBits - lo < fuel) (here : b.IteratorAt it lo) :
    ∃ runs, b.continueRuns fuel it = some runs ∧ (∀ r ∈ runs, lo ≤ r.1 ∧ r.1 + r.2 ≤ b.totalBits) ∧
      ∀ k, lo ≤ k → k < b.totalBits → (b.bit k = true ↔ ∃ r ∈ runs, r.1 ≤ k ∧ k < r.1 + r.2) := by
  induction fuel generalizing it lo with
  | zero => omega
  | succ fuel ih =>
    unfold continueRuns
    cases found : nextIndex b.bit b.totalBits lo with
    | none =>
      simp only [IteratorAt, found] at here
      rw [if_pos here]
      refine ⟨[], rfl, by simp, ?_⟩
      intro k lower upper
      simp [nextIndex_none found lower upper]
    | some k =>
      have next := b.continueNext_at it range found here
      obtain ⟨lower, inside, set, before⟩ := nextIndex_some found
      obtain ⟨after, ends, value, _⟩ := b.runEnd_spec inside set
      have last := range (b.runEnd k - 1) (by omega) (value _ (by omega) (by omega))
      simp only [IteratorAt, found] at here
      obtain ⟨first, count, _⟩ := here
      rw [if_neg (by omega), first, count, toSizeT_natCast (by omega), toSizeT_natCast (by omega)]
      obtain ⟨runs, rest, bounds, bits⟩ := ih (b.continueNext it) (b.runEnd k) ends (by omega) next
      rw [rest]
      refine ⟨_, rfl, ?_, ?_⟩
      · intro r member
        rcases List.mem_cons.mp member with rfl | member
        · simp only
          omega
        · have bound := bounds r member
          omega
      · intro i from_ upper
        rw [List.exists_mem_cons_iff]
        simp only [show k + (b.runEnd k - k) = b.runEnd k by omega]
        by_cases early : i < b.runEnd k
        · by_cases skipped : i < k
          · rw [before i from_ skipped]
            refine iff_of_false (by simp) ?_
            rintro (⟨right, _⟩ | ⟨r, member, right, _⟩)
            · omega
            · have bound := bounds r member
              omega
          · rw [value i (by omega) early]
            exact iff_of_true rfl (Or.inl ⟨by omega, early⟩)
        · rw [bits i (by omega) upper]
          constructor
          · exact Or.inr
          · rintro (⟨_, right⟩ | right)
            · omega
            · exact right

theorem foreachContinue_spec (b : Bitmask) (range : b.IntRange) :
    ∃ runs, b.foreachContinue = some runs ∧ (∀ r ∈ runs, r.1 + r.2 ≤ b.totalBits) ∧
      ∀ k, k < b.totalBits → (b.bit k = true ↔ ∃ r ∈ runs, r.1 ≤ k ∧ k < r.1 + r.2) := by
  obtain ⟨runs, found, bounds, bits⟩ := b.continueRuns_spec range (b.totalBits + 1) b.continueInit 0
    (Nat.zero_le _) (by omega) (b.continueInit_at range)
  exact ⟨runs, found, fun r member => (bounds r member).2, fun k => bits k (Nat.zero_le k)⟩

/-! ## Slots in the order of their bits -/

def reverse8 (x : Byte) : Byte :=
  let x := (x &&& 0xaa#8) >>> 1 ||| (x &&& 0x55#8) <<< 1
  let x := (x &&& 0xcc#8) >>> 2 ||| (x &&& 0x33#8) <<< 2
  (x &&& 0xf0#8) >>> 4 ||| (x &&& 0x0f#8) <<< 4

theorem reverse8_getLsbD (x : Byte) {k : Nat} (inside : k < 8) : (reverse8 x).getLsbD (7 - k) = x.getLsbD k := by
  unfold reverse8
  have cases : k = 0 ∨ k = 1 ∨ k = 2 ∨ k = 3 ∨ k = 4 ∨ k = 5 ∨ k = 6 ∨ k = 7 := by omega
  rcases cases with rfl | rfl | rfl | rfl | rfl | rfl | rfl | rfl <;> simp

/-- `bitmask_foreach`: the indices in the order of the loop, the fuel bounding the passes. -/
def foreachFrom (b : Bitmask) : Nat → Int → List Nat
  | 0, _ => []
  | fuel + 1, i =>
    if i < 0 then [] else i.toNat :: b.foreachFrom fuel (b.nextOne (toSizeT (toInt32 (i + 1))))

def foreach (b : Bitmask) : List Nat := b.foreachFrom (b.totalBits + 1) (b.nextOne 0)

def memcpyLsbfirst (b : Bitmask) (src : List Byte) : Int × Bitmask :=
  if fits : b.buffer.length < src.length then (-1, b)
  else (0, { b with
    buffer := src.map reverse8 ++ b.buffer.drop src.length
    bufsize := by
      have old := b.bufsize
      rw [List.length_append, List.length_map, List.length_drop]
      omega })

theorem memcpyLsbfirst_bit (b : Bitmask) {src : List Byte} (fits : src.length ≤ b.buffer.length) {k : Nat}
    (inside : k < 8 * src.length) : (b.memcpyLsbfirst src).2.bit k = (src.getD (k / 8) 0#8).getLsbD (k % 8) := by
  have byte : k / 8 < src.length := by omega
  rw [memcpyLsbfirst, dif_neg (Nat.not_lt.mpr fits), bit]
  dsimp only
  rw [List.getD_append _ _ _ _ (by rw [List.length_map]; exact byte), List.getD_eq_getElem _ _ (by rw [List.length_map]; exact byte),
    List.getElem_map, reverse8_getLsbD _ (by omega), List.getD_eq_getElem _ _ byte]

theorem filter_clear (b : Bitmask) {start count : Nat} (clear : ∀ j, start ≤ j → j < start + count → b.bit j = false) :
    (List.range' start count).filter b.bit = [] := by
  rw [List.filter_eq_nil_iff]
  intro j member
  rw [List.mem_range'_1] at member
  rw [clear j member.1 member.2]
  decide

theorem foreachFrom_eq (b : Bitmask) (range : b.IntRange) {fuel start : Nat} (enough : b.totalBits < start + fuel) :
    b.foreachFrom fuel (b.nextOne start) = (List.range' start (b.totalBits - start)).filter b.bit := by
  induction fuel generalizing start with
  | zero =>
    rw [Nat.sub_eq_zero_of_le (by omega)]
    rfl
  | succ fuel ih =>
    rw [nextOne_spec]
    cases found : nextIndex b.bit b.totalBits start with
    | none =>
      rw [filter_clear b fun j lower upper => nextIndex_none found lower (by omega)]
      rfl
    | some k =>
      obtain ⟨lower, upper, holds, before⟩ := nextIndex_some found
      have small := range k upper holds
      have split : b.totalBits - start = (k - start) + (1 + (b.totalBits - (k + 1))) := by omega
      have here : toInt32 k = k := toInt32_of_lt (by omega)
      have next : toSizeT (toInt32 (k + 1)) = k + 1 := by
        rw [show (k : Int) + 1 = ((k + 1 : Nat) : Int) from rfl, toInt32_of_lt (by omega), toSizeT_natCast (by omega)]
      dsimp only
      rw [here, foreachFrom, if_neg (by omega), next, ih (by omega), Int.toNat_natCast, split, ← List.range'_append_1,
        ← List.range'_append_1, List.filter_append, filter_clear b fun j lower upper => before j lower (by omega),
        show start + (k - start) = k by omega]
      simp [holds]

theorem foreach_eq (b : Bitmask) (range : b.IntRange) : b.foreach = (List.range b.totalBits).filter b.bit := by
  rw [foreach, foreachFrom_eq b range (by omega), List.range_eq_range', Nat.sub_zero]

structure Marks (b : Bitmask) (total : Nat) (S : Nat → Prop) : Prop where
  size : b.totalBits = total
  bits : ∀ k < total, b.bit k = true ↔ S k

theorem memset_bit (b : Bitmask) (k : Nat) : (b.memset 0#8).bit k = false := by
  have zero : (List.replicate b.buffer.length 0#8).getD (k / 8) 0#8 = 0#8 := by
    rw [List.getD_eq_getElem?_getD, List.getElem?_replicate]
    split <;> rfl
  rw [bit, memset, zero]
  exact BitVec.getLsbD_zero

theorem marks_cleared (total : Nat) : ((allocBitmask total).memset 0#8).Marks total fun _ => False := by
  refine ⟨rfl, fun k _ => ?_⟩
  rw [memset_bit]
  exact iff_of_false Bool.false_ne_true id

section Marks

variable {b : Bitmask} {total : Nat} {S T : Nat → Prop}

theorem Marks.congr (marks : b.Marks total S) (same : ∀ k < total, S k ↔ T k) : b.Marks total T :=
  ⟨marks.size, fun k inside => (marks.bits k inside).trans (same k inside)⟩

theorem Marks.set (marks : b.Marks total S) (i : Nat) : (b.set i).2.Marks total fun k => S k ∨ k = i := by
  refine ⟨(b.write_totalBits i true).trans marks.size, fun k inside => ?_⟩
  have bits := marks.bits k inside
  have size := marks.size
  rw [Bitmask.set, write_bit]
  split
  · rename_i here
    exact iff_of_true rfl (.inr here.1)
  · rename_i other
    rw [bits]
    exact ⟨.inl, fun either => either.resolve_right fun same => other ⟨same, by omega⟩⟩

theorem Marks.setBits (marks : b.Marks total S) (start count : Nat) :
    (b.setBits start count).2.Marks total fun k => S k ∨ start ≤ k ∧ k < start + count := by
  refine ⟨(b.setBits_totalBits start count).trans marks.size, fun k inside => ?_⟩
  have bits := marks.bits k inside
  have size := marks.size
  rw [setBits_bit]
  split
  · rename_i here
    exact iff_of_true rfl (.inr ⟨here.1, here.2.1⟩)
  · rename_i other
    rw [bits]
    exact ⟨.inl, fun either => either.resolve_right fun covered => other ⟨covered.1, covered.2, by omega⟩⟩

/-- An index out of range counts as set, as its return value is negative. -/
theorem Marks.get_iff (marks : b.Marks total S) (k : Nat) : b.get k ≠ 0 ↔ total ≤ k ∨ S k := by
  unfold Bitmask.get
  rw [marks.size]
  split
  · rename_i outside
    exact iff_of_true (by decide) (.inl outside)
  · rename_i inside
    have single := and_single_bit (b.buffer.getD (k / 8) 0#8) (7 - k % 8) (by omega)
    rw [or_iff_right inside, ← marks.bits k (Nat.lt_of_not_le inside), bit, ← single]
    split
    · rename_i one
      exact iff_of_true (by decide) one
    · rename_i zero
      exact iff_of_false (by decide) zero

end Marks

end Bitmask

end ImgEditor
