import ImgEditor.Storage.Overwrite
import ImgEditor.Storage.BlockHash
import ImgEditor.Hash.ShaDigest

namespace ImgEditor

open Storage

structure Md5Ctx where
  state : List (BitVec 32)
  count0 : BitVec 32
  count1 : BitVec 32
  buffer : List Byte

def md5F (x y z : BitVec 32) : BitVec 32 := x &&& y ||| ~~~x &&& z

def md5G (x y z : BitVec 32) : BitVec 32 := x &&& z ||| y &&& ~~~z

def md5H (x y z : BitVec 32) : BitVec 32 := x ^^^ y ^^^ z

def md5I (x y z : BitVec 32) : BitVec 32 := y ^^^ (x ||| ~~~z)

def md5RotateLeft (x : BitVec 32) (n : Nat) : BitVec 32 := x <<< n ||| x >>> (32 - n)

structure Md5Vars where
  a : BitVec 32
  b : BitVec 32
  c : BitVec 32
  d : BitVec 32

/-- One of the macros `FF`, `GG`, `HH` and `II`; the next call has the variables rotated by one. -/
def md5Step (f : BitVec 32 → BitVec 32 → BitVec 32 → BitVec 32) (x : List (BitVec 32)) (v : Md5Vars)
    (step : Nat × Nat × BitVec 32) : Md5Vars :=
  let a := v.a + (f v.b v.c v.d + x.getD step.1 0 + step.2.2)
  ⟨v.d, md5RotateLeft a step.2.1 + v.b, v.b, v.c⟩

def md5Round1 : List (Nat × Nat × BitVec 32) := [
    (0, 7, 0xd76aa478), (1, 12, 0xe8c7b756), (2, 17, 0x242070db), (3, 22, 0xc1bdceee),
    (4, 7, 0xf57c0faf), (5, 12, 0x4787c62a), (6, 17, 0xa8304613), (7, 22, 0xfd469501),
    (8, 7, 0x698098d8), (9, 12, 0x8b44f7af), (10, 17, 0xffff5bb1), (11, 22, 0x895cd7be),
    (12, 7, 0x6b901122), (13, 12, 0xfd987193), (14, 17, 0xa679438e), (15, 22, 0x49b40821)]

def md5Round2 : List (Nat × Nat × BitVec 32) := [
    (1, 5, 0xf61e2562), (6, 9, 0xc040b340), (11, 14, 0x265e5a51), (0, 20, 0xe9b6c7aa),
    (5, 5, 0xd62f105d), (10, 9, 0x2441453), (15, 14, 0xd8a1e681), (4, 20, 0xe7d3fbc8),
    (9, 5, 0x21e1cde6), (14, 9, 0xc33707d6), (3, 14, 0xf4d50d87), (8, 20, 0x455a14ed),
    (13, 5, 0xa9e3e905), (2, 9, 0xfcefa3f8), (7, 14, 0x676f02d9), (12, 20, 0x8d2a4c8a)]

def md5Round3 : List (Nat × Nat × BitVec 32) := [
    (5, 4, 0xfffa3942), (8, 11, 0x8771f681), (11, 16, 0x6d9d6122), (14, 23, 0xfde5380c),
    (1, 4, 0xa4beea44), (4, 11, 0x4bdecfa9), (7, 16, 0xf6bb4b60), (10, 23, 0xbebfbc70),
    (13, 4, 0x289b7ec6), (0, 11, 0xeaa127fa), (3, 16, 0xd4ef3085), (6, 23, 0x4881d05),
    (9, 4, 0xd9d4d039), (12, 11, 0xe6db99e5), (15, 16, 0x1fa27cf8), (2, 23, 0xc4ac5665)]

def md5Round4 : List (Nat × Nat × BitVec 32) := [
    (0, 6, 0xf4292244), (7, 10, 0x432aff97), (14, 15, 0xab9423a7), (5, 21, 0xfc93a039),
    (12, 6, 0x655b59c3), (3, 10, 0x8f0ccc92), (10, 15, 0xffeff47d), (1, 21, 0x85845dd1),
    (8, 6, 0x6fa87e4f), (15, 10, 0xfe2ce6e0), (6, 15, 0xa3014314), (13, 21, 0x4e0811a1),
    (4, 6, 0xf7537e82), (11, 10, 0xbd3af235), (2, 15, 0x2ad7d2bb), (9, 21, 0xeb86d391)]

def md5Decode (block : List Byte) : List (BitVec 32) :=
  (List.range 16).map fun i =>
    (block.getD (4 * i) 0).setWidth 32 ||| (block.getD (4 * i + 1) 0).setWidth 32 <<< 8 |||
      (block.getD (4 * i + 2) 0).setWidth 32 <<< 16 ||| (block.getD (4 * i + 3) 0).setWidth 32 <<< 24

def md5Transform (state : List (BitVec 32)) (block : List Byte) : List (BitVec 32) :=
  let x := md5Decode block
  let start : Md5Vars := ⟨state.getD 0 0, state.getD 1 0, state.getD 2 0, state.getD 3 0⟩
  let first := md5Round1.foldl (md5Step md5F x) start
  let second := md5Round2.foldl (md5Step md5G x) first
  let third := md5Round3.foldl (md5Step md5H x) second
  let v := md5Round4.foldl (md5Step md5I x) third
  [state.getD 0 0 + v.a, state.getD 1 0 + v.b, state.getD 2 0 + v.c, state.getD 3 0 + v.d]

def md5Encode (words : List (BitVec 32)) : List Byte := words.flatMap fun word => leBytes 4 word.toNat

def md5State : List (BitVec 32) := [0x67452301, 0xefcdab89, 0x98badcfe, 0x10325476]

/-- `junk` is what the buffer holds before. -/
def md5Init (junk : List Byte) : Md5Ctx := ⟨md5State, 0, 0, junk⟩

/-- The loop over the blocks of the input; `i + 63` is an `unsigned int`, and `none` is a read behind the input. -/
def md5Blocks (input : List Byte) : Nat → List (BitVec 32) → Nat → Option (List (BitVec 32) × Nat)
  | 0, _, _ => none
  | fuel + 1, state, i =>
    if (i + 63) % 2 ^ 32 < input.length then
      if i + 64 ≤ input.length then
        md5Blocks input fuel (md5Transform state (field input i 64)) ((i + 64) % 2 ^ 32)
      else none
    else some (state, i)

def md5Index (context : Md5Ctx) : Nat := (context.count0 >>> 3 &&& 0x3f).toNat

def md5Update (context : Md5Ctx) (input : List Byte) : Option Md5Ctx := do
  let index := md5Index context
  let inputLen := BitVec.ofNat 32 input.length
  let count0 := context.count0 + inputLen <<< 3
  let count1 := (if count0 < inputLen <<< 3 then context.count1 + 1 else context.count1) + inputLen >>> 29
  let partLen := 64 - index
  let (state, buffer, index, i) ←
    if partLen ≤ input.length then do
      let buffer ← overwrite context.buffer index (input.take partLen)
      let (state, i) ← md5Blocks input (input.length / 64 + 1) (md5Transform context.state buffer) partLen
      some (state, buffer, 0, i)
    else some (context.state, context.buffer, index, 0)
  let buffer ← overwrite buffer index (input.drop i)
  some ⟨state, count0, count1, buffer⟩

def md5Padding : List Byte := 0x80#8 :: List.replicate 63 0#8

/-- The digest, and the context with all its bytes zero. -/
def md5Final (context : Md5Ctx) : Option (List Byte × Md5Ctx) := do
  let bits := md5Encode [context.count0, context.count1]
  let index := md5Index context
  let padLen := if index < 56 then 56 - index else 120 - index
  let context ← md5Update context (md5Padding.take padLen)
  let context ← md5Update context bits
  some (md5Encode context.state, ⟨List.replicate 4 0, 0, 0, List.replicate 64 0#8⟩)

/-- The digest of a message whose first block meets the state `start`; the length in bits is taken modulo 2^64. -/
def md5Digest (start : List (BitVec 32)) (message : List Byte) : List Byte :=
  md5Encode (blockHash 64 md5Transform start (leBytes 8 (8 * message.length)) message)

def md5Absorbed (start : List (BitVec 32)) (message : List Byte) : List (BitVec 32) × List Byte :=
  absorb 64 md5Transform (start, []) message

def Md5Ctx.bits (context : Md5Ctx) : Nat := context.count1.toNat * 2 ^ 32 + context.count0.toNat

/-- The context behind a message. -/
structure Md5Ctx.Took (start : List (BitVec 32)) (context : Md5Ctx) (message : List Byte) : Prop where
  state : context.state = (md5Absorbed start message).1
  block : (md5Absorbed start message).2 <+: context.buffer
  size : context.buffer.length = 64
  bits : context.bits = 8 * message.length % 2 ^ 64

theorem md5Absorbed_left (start : List (BitVec 32)) (message : List Byte) :
    (md5Absorbed start message).2.length = message.length % 64 := by
  have left := @absorb_left _ 64 md5Transform (start, []) message (show 0 < 64 by decide)
  rw [List.length_nil, Nat.zero_add] at left
  exact left

theorem md5Start_took (start : List (BitVec 32)) {buffer : List Byte} (size : buffer.length = 64) :
    Md5Ctx.Took start ⟨start, 0, 0, buffer⟩ [] where
  state := rfl
  block := List.nil_prefix
  size := size
  bits := by
    rw [Md5Ctx.bits, List.length_nil]
    show (0 : BitVec 32).toNat * 2 ^ 32 + (0 : BitVec 32).toNat = 8 * 0 % 2 ^ 64
    decide

section Update

variable {start : List (BitVec 32)} {context : Md5Ctx} {message input : List Byte}

theorem md5Index_took (took : context.Took start message) : md5Index context = (md5Absorbed start message).2.length := by
  have low : context.count0.toNat = 8 * message.length % 2 ^ 32 := by
    have bits := took.bits
    rw [Md5Ctx.bits] at bits
    have small := context.count0.isLt
    omega
  rw [md5Absorbed_left, md5Index, BitVec.toNat_and, BitVec.toNat_ushiftRight, low, Nat.shiftRight_eq_div_pow,
    show (0x3f : BitVec 32).toNat = 2 ^ 6 - 1 by rfl, Nat.and_two_pow_sub_one_eq_mod]
  omega

/-- The two counters go on by the bits of an input whose length an `unsigned int` holds. -/
theorem md5Count_bits (count0 count1 : BitVec 32) {n : Nat} (small : n < 2 ^ 32) :
    let inputLen := BitVec.ofNat 32 n
    let low := count0 + inputLen <<< 3
    let high := (if low < inputLen <<< 3 then count1 + 1 else count1) + inputLen >>> 29
    high.toNat * 2 ^ 32 + low.toNat = (count1.toNat * 2 ^ 32 + count0.toNat + 8 * n) % 2 ^ 64 := by
  intro inputLen low high
  have count := count0.isLt
  have count' := count1.isLt
  have len : inputLen.toNat = n := by
    rw [BitVec.toNat_ofNat, Nat.mod_eq_of_lt small]
  have bits : (inputLen <<< 3).toNat = 8 * n % 2 ^ 32 := by
    rw [BitVec.toNat_shiftLeft, len, Nat.shiftLeft_eq, Nat.mul_comm]
  have top : (inputLen >>> 29).toNat = 8 * n / 2 ^ 32 := by
    rw [BitVec.toNat_ushiftRight, len, Nat.shiftRight_eq_div_pow]
    omega
  have sum : low.toNat = (count0.toNat + 8 * n % 2 ^ 32) % 2 ^ 32 := by
    rw [BitVec.toNat_add, bits]
  have wraps : low < inputLen <<< 3 ↔ 2 ^ 32 ≤ count0.toNat + 8 * n % 2 ^ 32 := by
    rw [BitVec.lt_def, sum, bits]
    omega
  have carried : high.toNat = (count1.toNat + (if 2 ^ 32 ≤ count0.toNat + 8 * n % 2 ^ 32 then 1 else 0) +
      8 * n / 2 ^ 32) % 2 ^ 32 := by
    by_cases beyond : 2 ^ 32 ≤ count0.toNat + 8 * n % 2 ^ 32
    · rw [if_pos beyond, BitVec.toNat_add, if_pos (wraps.mpr beyond), top, BitVec.toNat_add]
      exact Nat.mod_add_mod _ _ _
    · rw [if_neg beyond, BitVec.toNat_add, if_neg (fun less => beyond (wraps.mp less)), top]
      rfl
  rw [carried, sum]
  split <;> omega

/-- The loop takes all full blocks that are left of an input on which `i + 63` does not wrap. -/
theorem md5Blocks_run (near : input.length + 63 < 2 ^ 32) {fuel : Nat} (state : List (BitVec 32)) {i : Nat}
    (inside : i ≤ input.length) (enough : input.length - i < 64 * fuel) :
    ∃ state' i', md5Blocks input fuel state i = some (state', i') ∧
      absorb 64 md5Transform (state, []) (input.drop i) = (state', input.drop i') := by
  induction fuel generalizing state i with
  | zero => omega
  | succ fuel ih =>
    have exact_ : (i + 63) % 2 ^ 32 = i + 63 := Nat.mod_eq_of_lt (by omega)
    by_cases more : i + 63 < input.length
    · obtain ⟨state', i', run, took⟩ := @ih (md5Transform state (field input i 64)) (i + 64) (by omega) (by omega)
      rw [md5Blocks, exact_, if_pos more, if_pos (by omega), Nat.mod_eq_of_lt (by omega)]
      refine ⟨state', i', run, ?_⟩
      have block : (field input i 64).length = 64 := field_length (by omega)
      have split : input.drop i = field input i 64 ++ input.drop (i + 64) := by
        rw [field, ← List.drop_drop, List.take_append_drop]
      have first : absorb 64 md5Transform (state, []) (field input i 64) = (md5Transform state (field input i 64), []) := by
        apply absorb_full
        · rw [← List.length_pos_iff, block]
          decide
        · rw [block]
          rfl
      rw [split, absorb_append, first, took]
    · rw [md5Blocks, exact_, if_neg more]
      refine ⟨state, i, rfl, ?_⟩
      apply absorb_short
      rw [List.length_drop, List.length_nil]
      omega

theorem md5Update_took (took : context.Took start message) (near : input.length + 63 < 2 ^ 32) :
    ∃ context', md5Update context input = some context' ∧ context'.Took start (message ++ input) := by
  have index := md5Index_took took
  have left := md5Absorbed_left start message
  have room : md5Index context < 64 := by
    rw [index, left]
    exact Nat.mod_lt _ (by decide)
  have joined : md5Absorbed start (message ++ input) = absorb 64 md5Transform (md5Absorbed start message) input := absorb_append _ _ _
  have counted := md5Count_bits context.count0 context.count1 (show input.length < 2 ^ 32 by omega)
  have bits : (context.count1.toNat * 2 ^ 32 + context.count0.toNat + 8 * input.length) % 2 ^ 64 =
      8 * (message ++ input).length % 2 ^ 64 := by
    have before := took.bits
    rw [Md5Ctx.bits] at before
    rw [List.length_append, before]
    omega
  rw [bits] at counted
  rw [md5Update]
  by_cases full : 64 - md5Index context ≤ input.length
  · -- the buffer is filled up, the loop takes the blocks behind it, and the rest goes to the front of the buffer
    have partLength : (input.take (64 - md5Index context)).length = 64 - md5Index context := by
      rw [List.length_take]
      omega
    have fits : md5Index context + (input.take (64 - md5Index context)).length ≤ context.buffer.length := by
      rw [partLength, took.size]
      omega
    obtain ⟨state, i, run, rest⟩ := md5Blocks_run near
      (md5Transform context.state (setField context.buffer (md5Index context) (input.take (64 - md5Index context))))
      full (show input.length - (64 - md5Index context) < 64 * (input.length / 64 + 1) by omega)
    have filled : setField context.buffer (md5Index context) (input.take (64 - md5Index context)) =
        (md5Absorbed start message).2 ++ input.take (64 - md5Index context) := by
      have front := setField_extends took.block (input.take (64 - md5Index context))
      rw [← index] at front
      refine (front.eq_of_length ?_).symm
      rw [setField_length fits, took.size, List.length_append, ← index, partLength]
      omega
    have first : absorb 64 md5Transform (md5Absorbed start message) (input.take (64 - md5Index context)) =
        (md5Transform context.state (setField context.buffer (md5Index context) (input.take (64 - md5Index context))), []) := by
      rw [filled, took.state]
      apply absorb_full
      · rw [← List.length_pos_iff, partLength]
        omega
      · rw [partLength, ← index]
        omega
    have all : md5Absorbed start (message ++ input) = (state, input.drop i) := by
      rw [joined, ← List.take_append_drop (64 - md5Index context) input, absorb_append, first, rest,
        List.take_append_drop]
    have short : (input.drop i).length < 64 := by
      have below := md5Absorbed_left start (message ++ input)
      rw [all] at below
      rw [below]
      exact Nat.mod_lt _ (by decide)
    have size : (setField context.buffer (md5Index context) (input.take (64 - md5Index context))).length = 64 :=
      (setField_length fits).trans took.size
    have fits' : 0 + (input.drop i).length ≤
        (setField context.buffer (md5Index context) (input.take (64 - md5Index context))).length := by
      rw [size]
      omega
    rw [if_pos full, overwrite_inside fits]
    simp only [Option.bind_eq_bind, Option.bind_some, run, overwrite_inside fits']
    refine ⟨_, rfl, ?_, ?_, ?_, counted⟩
    · rw [all]
    · rw [all]
      exact setField_extends List.nil_prefix (input.drop i)
    · exact (setField_length fits').trans size
  · rw [if_neg full]
    have short : md5Absorbed start (message ++ input) = ((md5Absorbed start message).1, (md5Absorbed start message).2 ++ input) := by
      rw [joined]
      apply absorb_short
      rw [← index]
      omega
    have fits : md5Index context + (input.drop 0).length ≤ context.buffer.length := by
      rw [List.drop_zero, took.size]
      omega
    show ∃ context', (overwrite context.buffer (md5Index context) (input.drop 0)).bind _ = some context' ∧ _
    rw [overwrite_inside fits, Option.bind_some]
    refine ⟨_, rfl, ?_, ?_, ?_, counted⟩
    · rw [short, took.state]
    · rw [short, index, List.drop_zero]
      exact setField_extends took.block input
    · exact (setField_length fits).trans took.size

/-- `Final` gives the digest of what `Update` took, and the context that is left starts from zeros. -/
theorem md5Final_took (took : context.Took start message) :
    ∃ context', md5Final context = some (md5Digest start message, context') ∧
      context'.Took (List.replicate 4 0) [] := by
  have index := md5Index_took took
  have left := md5Absorbed_left start message
  have bits : md5Encode [context.count0, context.count1] = leBytes 8 (8 * message.length) := by
    have value := took.bits
    have small := context.count0.isLt
    have small' := context.count1.isLt
    rw [Md5Ctx.bits] at value
    have low : context.count0.toNat = 8 * message.length % 256 ^ 4 := by omega
    have high : context.count1.toNat = 8 * message.length / 256 ^ 4 % 256 ^ 4 := by omega
    rw [md5Encode, List.flatMap_cons, List.flatMap_singleton, low, high, leBytes_mod, leBytes_mod]
    exact (leBytes_append 4 4 _).symm
  have padLen : md5Padding.take (if md5Index context < 56 then 56 - md5Index context else 120 - md5Index context) ++
      leBytes 8 (8 * message.length) = padding 64 message.length (leBytes 8 (8 * message.length)) := by
    have zeros := padding_zeros (leBytes 8 (8 * message.length)) (by rw [leBytes_length]; decide) (index.trans left)
    rw [leBytes_length] at zeros
    have below : md5Index context < 64 := by
      rw [index, left]
      exact Nat.mod_lt _ (by decide)
    rw [padding, leBytes_length, zeros, md5Padding]
    by_cases first : md5Index context < 56
    · rw [if_pos first, if_neg (show ¬ 64 ≤ md5Index context + 8 by omega),
        show 56 - md5Index context = 64 - 8 - (md5Index context + 1) + 1 by omega, List.take_succ_cons,
        List.take_replicate, Nat.min_eq_left (by omega)]
    · rw [if_neg first, if_pos (show 64 ≤ md5Index context + 8 by omega),
        show 120 - md5Index context = 64 - (md5Index context + 1) + (64 - 8) + 1 by omega, List.take_succ_cons,
        List.take_replicate, Nat.min_eq_left (by omega)]
  have short : (md5Padding.take (if md5Index context < 56 then 56 - md5Index context else 120 - md5Index context)).length ≤
      64 := by
    rw [List.length_take]
    exact Nat.min_le_right _ _
  obtain ⟨padded, pads, took'⟩ := md5Update_took took
    (show (md5Padding.take (if md5Index context < 56 then 56 - md5Index context else 120 - md5Index context)).length + 63 <
      2 ^ 32 by omega)
  obtain ⟨last, lasts, took''⟩ := md5Update_took took'
    (show (leBytes 8 (8 * message.length)).length + 63 < 2 ^ 32 by rw [leBytes_length]; decide)
  have done := @absorb_padded _ _ md5Transform (show 0 < 64 by decide) start (leBytes 8 (8 * message.length)) message
  rw [← absorb_append, ← padLen, ← List.append_assoc] at done
  have state : last.state = blockHash 64 md5Transform start (leBytes 8 (8 * message.length)) message := by
    rw [took''.state, md5Absorbed, done]
  rw [md5Final, pads, Option.bind_eq_bind, Option.bind_some, bits, lasts, Option.bind_some, state]
  exact ⟨_, rfl, md5Start_took _ List.length_replicate⟩

end Update

end ImgEditor
