import ImgEditor.Hash.Sha
import ImgEditor.Storage.BlockHash

namespace ImgEditor

open Storage

/-- The length of the message in bits, at the end of the last block. -/
def shaTail (w n : Nat) : List Byte := (leBytes (w / 4) (8 * n)).reverse

/-- The digest as the standard defines it: the blocks of the padded message one after the other. -/
def ShaAlgo.reference (algo : ShaAlgo) (message : List Byte) : List Byte :=
  shaDigest algo.w algo.hashSize
    (blockHash algo.blockSize algo.processMessageBlock algo.H0 (shaTail algo.w message.length) message)

section Bytes

/-- The bytes that a loop of stores leaves in an array. -/
theorem foldl_stores {n : Nat} (v : Vector Byte n) {offset : Nat} (f : Nat → Byte) {count : Nat}
    (inside : offset + count ≤ n) :
    ((List.range count).foldl (fun (block : Vector Byte n) k => block.setIfInBounds (offset + k) (f k)) v).toList =
      v.toList.take offset ++ (List.range count).map f ++ v.toList.drop (offset + count) := by
  induction count with
  | zero =>
    rw [List.range_zero, List.map_nil, List.append_nil, Nat.add_zero, List.take_append_drop]
    rfl
  | succ count ih =>
    have below : offset + count < v.toList.length := by
      rw [Vector.length_toList]
      omega
    have front : (v.toList.take offset ++ (List.range count).map f).length = offset + count := by
      rw [List.length_append, List.length_take, List.length_map, List.length_range]
      omega
    rw [List.range_succ, List.foldl_append, List.foldl_cons, List.foldl_nil, Vector.toList_setIfInBounds,
      ih (by omega), List.set_append_right _ _ (Nat.le_of_eq front), front, Nat.sub_self,
      List.drop_eq_getElem_cons below, List.set_cons_zero, List.map_append, List.append_assoc, List.append_assoc,
      List.append_assoc]
    rfl

theorem leBytes_append (low high n : Nat) :
    leBytes (low + high) n = leBytes low n ++ leBytes high (n / 256 ^ low) := by
  induction low generalizing n with
  | zero =>
    rw [Nat.zero_add, Nat.pow_zero, Nat.div_one]
    rfl
  | succ low ih =>
    rw [Nat.succ_add, leBytes, ih, leBytes, List.cons_append, Nat.div_div_eq_div_mul, Nat.pow_succ, Nat.mul_comm 256]

theorem leBytes_reverse (width n : Nat) :
    (leBytes width n).reverse = (List.range width).map fun k => BitVec.ofNat 8 (n / 256 ^ (width - 1 - k)) := by
  induction width generalizing n with
  | zero => rfl
  | succ width ih =>
    rw [leBytes, List.reverse_cons, ih, List.range_succ, List.map_append]
    apply congrArg₂
    · apply List.map_congr_left
      intro k inside
      have below := List.mem_range.mp inside
      rw [Nat.div_div_eq_div_mul, ← Nat.pow_succ', show (width - 1 - k).succ = width + 1 - 1 - k by omega]
    · rw [List.map_singleton, show width + 1 - 1 - width = 0 by omega, Nat.pow_zero, Nat.div_one]

/-- The bytes of a word as the source takes them out of it by shifts. -/
theorem word_bytes {w : Nat} (bytes : 8 ∣ w) (word : BitVec w) :
    ((List.range (w / 8)).map fun k => (word >>> (w - 8 - 8 * k)).setWidth 8) = (leBytes (w / 8) word.toNat).reverse := by
  rw [leBytes_reverse]
  apply List.map_congr_left
  intro k inside
  have below := List.mem_range.mp inside
  have whole : 8 * (w / 8) = w := Nat.mul_div_cancel' bytes
  apply BitVec.eq_of_toNat_eq
  rw [BitVec.toNat_setWidth, BitVec.toNat_ushiftRight, BitVec.toNat_ofNat, Nat.shiftRight_eq_div_pow,
    show w - 8 - 8 * k = 8 * (w / 8 - 1 - k) by omega, Nat.pow_mul]

end Bytes

section Context

variable {algo : ShaAlgo}

/-- What `Input` has made of a message so far. -/
def ShaAlgo.absorbed (algo : ShaAlgo) (message : List Byte) : List (BitVec algo.w) × List Byte :=
  absorb algo.blockSize algo.processMessageBlock (algo.H0, []) message

def ShaContext.bits (context : ShaContext algo) : Nat :=
  context.lengthHigh.toNat * 2 ^ algo.w + context.lengthLow.toNat

/-- The context behind a message that no error and no `Result` has touched. -/
structure ShaContext.Took (context : ShaContext algo) (message : List Byte) : Prop where
  state : context.intermediateHash = (algo.absorbed message).1
  block : context.messageBlock.toList.take context.messageBlockIndex = (algo.absorbed message).2
  index : context.messageBlockIndex = (algo.absorbed message).2.length
  bits : context.bits = 8 * message.length
  open_ : context.computed = false
  good : context.corrupted = none

theorem ShaAlgo.absorbed_left (algo : ShaAlgo) (message : List Byte) :
    (algo.absorbed message).2.length = message.length % algo.blockSize := by
  have room := algo.room
  have left := @absorb_left _ algo.blockSize algo.processMessageBlock (algo.H0, []) message (by
    rw [List.length_nil]
    omega)
  rw [List.length_nil, Nat.zero_add] at left
  exact left

theorem shaReset_took (junk : Vector Byte algo.blockSize) : (shaReset junk).Took [] where
  state := rfl
  block := List.take_zero
  index := rfl
  bits := by
    rw [ShaContext.bits, shaReset, BitVec.ofNat_eq_ofNat, BitVec.toNat_ofNat, Nat.zero_mod, Nat.zero_mul]
    rfl
  open_ := rfl
  good := rfl

/-- The two words count the bits, and nothing is flagged below their limit. -/
theorem shaAddLength_counts (context : ShaContext algo) (below : context.bits + 8 < 2 ^ (2 * algo.w)) :
    (shaAddLength context 8).bits = context.bits + 8 ∧ (shaAddLength context 8).corrupted = context.corrupted := by
  have wide : 2 ^ 8 ≤ 2 ^ algo.w := Nat.pow_le_pow_right (by decide) (Nat.le_of_dvd algo.wide algo.bytes)
  have low := context.lengthLow.isLt
  have high := context.lengthHigh.isLt
  have eight : (8 : BitVec algo.w).toNat = 8 := by
    have small : 8 < 2 ^ algo.w := by omega
    exact Nat.mod_eq_of_lt small
  have sum : (context.lengthLow + 8).toNat = (context.lengthLow.toNat + 8) % 2 ^ algo.w := by
    rw [BitVec.toNat_add, eight]
  rw [ShaContext.bits, Nat.two_mul, Nat.pow_add] at below
  have wraps : context.lengthLow + 8 < context.lengthLow ↔ 2 ^ algo.w ≤ context.lengthLow.toNat + 8 := by
    rw [BitVec.lt_def, sum]
    constructor
    · intro less
      by_contra fits
      rw [Nat.mod_eq_of_lt (by omega)] at less
      omega
    · intro beyond
      rw [Nat.mod_eq_sub_mod beyond, Nat.mod_eq_of_lt (by omega)]
      omega
  by_cases beyond : 2 ^ algo.w ≤ context.lengthLow.toNat + 8
  · have next : context.lengthHigh.toNat + 1 < 2 ^ algo.w := by
      by_contra limit
      have most : 2 ^ algo.w * 2 ^ algo.w ≤ (context.lengthHigh.toNat + 1) * 2 ^ algo.w :=
        Nat.mul_le_mul_right _ (Nat.le_of_not_lt limit)
      rw [Nat.succ_mul] at most
      omega
    have one : (1 : BitVec algo.w).toNat = 1 := by
      have small : 1 < 2 ^ algo.w := by omega
      exact Nat.mod_eq_of_lt small
    have carried : (context.lengthHigh + 1).toNat = context.lengthHigh.toNat + 1 := by
      rw [BitVec.toNat_add, one, Nat.mod_eq_of_lt next]
    have some_ : context.lengthHigh + 1 ≠ 0 := by
      intro zero
      rw [zero] at carried
      cases carried
    rw [shaAddLength, if_pos (wraps.mpr beyond), ShaContext.bits, ShaContext.bits]
    refine ⟨?_, if_neg some_⟩
    show (context.lengthHigh + 1).toNat * 2 ^ algo.w + (context.lengthLow + 8).toNat = _
    rw [sum, Nat.mod_eq_sub_mod beyond, Nat.mod_eq_of_lt (by omega), carried, Nat.succ_mul]
    omega
  · rw [shaAddLength, if_neg (fun less => beyond (wraps.mp less)), ShaContext.bits, ShaContext.bits]
    refine ⟨?_, rfl⟩
    show context.lengthHigh.toNat * 2 ^ algo.w + (context.lengthLow + 8).toNat = _
    rw [sum, Nat.mod_eq_of_lt (by omega)]
    omega

@[simp] theorem shaAddLength_hash (context : ShaContext algo) (length : BitVec algo.w) :
    (shaAddLength context length).intermediateHash = context.intermediateHash := by
  rw [shaAddLength]
  split <;> rfl

@[simp] theorem shaAddLength_index (context : ShaContext algo) (length : BitVec algo.w) :
    (shaAddLength context length).messageBlockIndex = context.messageBlockIndex := by
  rw [shaAddLength]
  split <;> rfl

@[simp] theorem shaAddLength_block (context : ShaContext algo) (length : BitVec algo.w) :
    (shaAddLength context length).messageBlock = context.messageBlock := by
  rw [shaAddLength]
  split <;> rfl

@[simp] theorem shaAddLength_computed (context : ShaContext algo) (length : BitVec algo.w) :
    (shaAddLength context length).computed = context.computed := by
  rw [shaAddLength]
  split <;> rfl

theorem shaPut_inside (context : ShaContext algo) (inside : context.messageBlockIndex < algo.blockSize) (c : Byte) :
    ∃ block : Vector Byte algo.blockSize,
      shaPut context c =
        some { context with messageBlock := block, messageBlockIndex := context.messageBlockIndex + 1 } ∧
      block.toList.take (context.messageBlockIndex + 1) =
        context.messageBlock.toList.take context.messageBlockIndex ++ [c] := by
  refine ⟨_, if_pos inside, ?_⟩
  rw [Vector.toList_setIfInBounds, List.take_add_one, List.take_set_of_le (Nat.le_refl _),
    List.getElem?_set_self (by rw [Vector.length_toList]; exact inside)]
  rfl

theorem shaInputByte_took {context : ShaContext algo} {message : List Byte} (took : context.Took message)
    (below : 8 * message.length + 8 < 2 ^ (2 * algo.w)) (c : Byte) :
    ∃ context', shaInputByte context c = some context' ∧ context'.Took (message ++ [c]) := by
  have inside : context.messageBlockIndex < algo.blockSize := by
    rw [took.index, algo.absorbed_left]
    have room := algo.room
    exact Nat.mod_lt _ (by omega)
  obtain ⟨block, put, front⟩ := shaPut_inside context inside c
  have counted : context.bits + 8 < 2 ^ (2 * algo.w) := took.bits ▸ below
  generalize taken : { context with messageBlock := block, messageBlockIndex := context.messageBlockIndex + 1 } = next at put
  have same : next.bits = context.bits ∧ next.corrupted = context.corrupted ∧ next.computed = context.computed ∧
      next.intermediateHash = context.intermediateHash ∧ next.messageBlock = block ∧
      next.messageBlockIndex = context.messageBlockIndex + 1 := by
    rw [← taken]
    exact ⟨rfl, rfl, rfl, rfl, rfl, rfl⟩
  obtain ⟨bits, good, open_, hash, content, index⟩ := same
  obtain ⟨counts, unflagged⟩ := shaAddLength_counts next (bits ▸ counted)
  have step : algo.absorbed (message ++ [c]) = absorbByte algo.blockSize algo.processMessageBlock (algo.absorbed message) c :=
    absorb_append _ _ _
  have total : (shaAddLength next 8).bits = 8 * (message ++ [c]).length := by
    rw [counts, bits, took.bits, List.length_append, List.length_singleton]
    omega
  have shown : next.messageBlock.toList.take next.messageBlockIndex = (algo.absorbed message).2 ++ [c] := by
    rw [content, index, front, took.block]
  rw [shaInputByte, put, Option.bind_eq_bind, Option.bind_some]
  dsimp only
  rw [unflagged, good, took.good, shaAddLength_index]
  by_cases full : next.messageBlockIndex = algo.blockSize
  · rw [if_pos ⟨rfl, full⟩]
    have whole : (algo.absorbed message).2.length + 1 = algo.blockSize := by
      rw [← took.index, ← index, full]
    rw [absorbByte, if_pos whole] at step
    refine ⟨_, rfl, ?_, ?_, ?_, total, ?_, ?_⟩
    · rw [step, shaProcessMessageBlock, shaAddLength_hash, shaAddLength_block, hash, took.state, ← shown, full,
        List.take_of_length_le (Nat.le_of_eq Vector.length_toList)]
    · rw [step, shaProcessMessageBlock, List.take_zero]
    · rw [step]
      rfl
    · rw [shaProcessMessageBlock, shaAddLength_computed, open_, took.open_]
    · rw [shaProcessMessageBlock, unflagged, good, took.good]
  · rw [if_neg (fun both => full both.2)]
    have part : (algo.absorbed message).2.length + 1 ≠ algo.blockSize := by
      rw [← took.index, ← index]
      exact full
    rw [absorbByte, if_neg part] at step
    refine ⟨_, rfl, ?_, ?_, ?_, total, ?_, ?_⟩
    · rw [step, shaAddLength_hash, hash, took.state]
    · rw [step, shaAddLength_block, shaAddLength_index, shown]
    · rw [step, shaAddLength_index, index, took.index, List.length_append]
      rfl
    · rw [shaAddLength_computed, open_, took.open_]
    · rw [unflagged, good, took.good]

/-- The loop of `Input` takes all the bytes as long as their number of bits fits in the two words. -/
theorem shaInput_took {context : ShaContext algo} {message : List Byte} (took : context.Took message) (piece : List Byte)
    (below : 8 * (message.length + piece.length) < 2 ^ (2 * algo.w)) :
    ∃ context', shaInput context piece = some (none, context') ∧ context'.Took (message ++ piece) := by
  have loop : ∃ context', piece.foldlM shaInputByte context = some context' ∧ context'.Took (message ++ piece) := by
    induction piece generalizing context message with
    | nil =>
      rw [List.append_nil]
      exact ⟨context, rfl, took⟩
    | cons c piece ih =>
      rw [List.length_cons] at below
      obtain ⟨next, step, took'⟩ := shaInputByte_took took (by omega) c
      obtain ⟨last, run, tooks⟩ := ih took' (by
        rw [List.length_append, List.length_singleton]
        omega)
      rw [List.append_assoc] at tooks
      refine ⟨last, ?_, tooks⟩
      rw [List.foldlM_cons, step]
      exact run
  by_cases empty : piece.length = 0
  · rw [List.length_eq_zero_iff.mp empty, List.append_nil]
    exact ⟨context, if_pos rfl, took⟩
  · obtain ⟨context', run, took'⟩ := loop
    rw [shaInput, if_neg empty, took.open_, if_neg Bool.false_ne_true, took.good, if_neg (fun wrong => wrong rfl), run]
    refine ⟨context', ?_, took'⟩
    rw [Option.map_some, took'.good]

theorem shaPut_zeros (context : ShaContext algo) {count : Nat} (inside : context.messageBlockIndex + count ≤ algo.blockSize) :
    ∃ block : Vector Byte algo.blockSize,
      (List.range count).foldlM (fun context _ => shaPut context 0#8) context =
        some { context with messageBlock := block, messageBlockIndex := context.messageBlockIndex + count } ∧
      block.toList.take (context.messageBlockIndex + count) =
        context.messageBlock.toList.take context.messageBlockIndex ++ List.replicate count 0#8 := by
  induction count with
  | zero =>
    rw [Nat.add_zero, List.replicate_zero, List.append_nil]
    exact ⟨context.messageBlock, rfl, rfl⟩
  | succ count ih =>
    obtain ⟨block, run, front⟩ := ih (by omega)
    have below : context.messageBlockIndex + count < algo.blockSize := by omega
    obtain ⟨block', put, front'⟩ := shaPut_inside
      { context with messageBlock := block, messageBlockIndex := context.messageBlockIndex + count } below 0#8
    refine ⟨block', ?_, ?_⟩
    · rw [List.range_succ, List.foldlM_append, run, Option.bind_eq_bind, Option.bind_some, List.foldlM_cons, put]
      rfl
    · rw [List.replicate_succ', ← List.append_assoc, ← front]
      exact front'

theorem shaPutZeros_inside (context : ShaContext algo) {limit : Nat} (inside : context.messageBlockIndex ≤ limit)
    (room : limit ≤ algo.blockSize) :
    ∃ block : Vector Byte algo.blockSize,
      shaPutZeros limit context = some { context with messageBlock := block, messageBlockIndex := limit } ∧
      block.toList.take limit = context.messageBlock.toList.take context.messageBlockIndex ++
        List.replicate (limit - context.messageBlockIndex) 0#8 := by
  have reached : context.messageBlockIndex + (limit - context.messageBlockIndex) = limit := by omega
  have found := shaPut_zeros context (Nat.le_trans (Nat.le_of_eq reached) room)
  rw [reached] at found
  exact found

/-- The length goes behind what stands in the block, as one number of two words. -/
theorem shaPutLength_block (context : ShaContext algo) {n : Nat} (bits : context.bits = 8 * n) :
    (shaPutLength context).messageBlock.toList =
      context.messageBlock.toList.take (algo.blockSize - algo.w / 4) ++ shaTail algo.w n := by
  have room := algo.room
  have half : algo.w / 4 = algo.w / 8 + algo.w / 8 := by
    have whole := Nat.mul_div_cancel' algo.bytes
    omega
  have power : 256 ^ (algo.w / 8) = 2 ^ algo.w := by
    rw [show 256 = 2 ^ 8 by rfl, ← Nat.pow_mul, Nat.mul_div_cancel' algo.bytes]
  have low := context.lengthLow.isLt
  have tail : shaTail algo.w n =
      (leBytes (algo.w / 8) context.lengthHigh.toNat).reverse ++ (leBytes (algo.w / 8) context.lengthLow.toNat).reverse := by
    have quotient : context.bits / 2 ^ algo.w = context.lengthHigh.toNat := by
      rw [ShaContext.bits, Nat.add_comm, Nat.add_mul_div_right _ _ (Nat.two_pow_pos _), Nat.div_eq_of_lt low, Nat.zero_add]
    have remainder : context.bits % 2 ^ algo.w = context.lengthLow.toNat := by
      rw [ShaContext.bits, Nat.mul_add_mod_of_lt low]
    rw [shaTail, ← bits, half, leBytes_append, List.reverse_append, power, quotient, ← leBytes_mod _ context.bits, power,
      remainder]
  rw [shaPutLength]
  dsimp only
  rw [foldl_stores _ _ (by omega), foldl_stores _ _ (by omega), word_bytes algo.bytes, word_bytes algo.bytes, tail]
  have front : (context.messageBlock.toList.take (algo.blockSize - algo.w / 4) ++
      (leBytes (algo.w / 8) context.lengthHigh.toNat).reverse).length = algo.blockSize - algo.w / 8 := by
    rw [List.length_append, List.length_take, Vector.length_toList, List.length_reverse, leBytes_length]
    omega
  rw [List.take_left' front, List.drop_eq_nil_of_le, List.append_nil, List.append_assoc]
  rw [List.length_append, front, List.length_drop, Vector.length_toList]
  omega

/-- The last block: zeros, the length, and the block function. -/
theorem shaPad_last (context : ShaContext algo) {n : Nat} (bits : context.bits = 8 * n)
    (inside : context.messageBlockIndex ≤ algo.blockSize - algo.w / 4) :
    ∃ context', shaPutZeros (algo.blockSize - algo.w / 4) context = some context' ∧
      context'.corrupted = context.corrupted ∧
      absorb algo.blockSize algo.processMessageBlock
          (context.intermediateHash, context.messageBlock.toList.take context.messageBlockIndex)
          (List.replicate (algo.blockSize - algo.w / 4 - context.messageBlockIndex) 0#8 ++ shaTail algo.w n) =
        ((shaProcessMessageBlock (shaPutLength context')).intermediateHash, []) := by
  have room := algo.room
  have wide := Nat.le_of_dvd algo.wide algo.bytes
  have tailLength : (shaTail algo.w n).length = algo.w / 4 := by
    rw [shaTail, List.length_reverse, leBytes_length]
  obtain ⟨block, run, front⟩ := shaPutZeros_inside context inside (Nat.sub_le _ _)
  refine ⟨_, run, rfl, ?_⟩
  have content := shaPutLength_block
    { context with messageBlock := block, messageBlockIndex := algo.blockSize - algo.w / 4 } bits
  rw [shaProcessMessageBlock, content, front, List.append_assoc]
  apply absorb_full
  · rw [← List.length_pos_iff, List.length_append, tailLength]
    omega
  · rw [List.length_take, Vector.length_toList, List.length_append, List.length_replicate, tailLength]
    omega

/-- Both ways to fill the last block give the hash of the padded message. -/
theorem shaPadMessage_hash {context : ShaContext algo} {message : List Byte} (took : context.Took message) :
    ∃ context', shaPadMessage context 0x80#8 = some context' ∧ context'.corrupted = none ∧
      context'.intermediateHash =
        blockHash algo.blockSize algo.processMessageBlock algo.H0 (shaTail algo.w message.length) message := by
  have room := algo.room
  have wide := Nat.le_of_dvd algo.wide algo.bytes
  have positive : 0 < algo.blockSize := by omega
  have tailLength : (shaTail algo.w message.length).length = algo.w / 4 := by
    rw [shaTail, List.length_reverse, leBytes_length]
  have index := took.index
  have left := algo.absorbed_left message
  have below : context.messageBlockIndex < algo.blockSize := by
    rw [index, left]
    exact Nat.mod_lt _ positive
  have padded := @absorb_padded _ _ algo.processMessageBlock positive algo.H0 (shaTail algo.w message.length) message
  have zeros := padding_zeros (shaTail algo.w message.length) (by omega) left
  rw [tailLength, ← index] at zeros
  rw [padding, tailLength, zeros, ← ShaAlgo.absorbed, List.cons_append, ← List.singleton_append, absorb_append] at padded
  obtain ⟨block, put, front⟩ := shaPut_inside context below 0x80#8
  rw [took.block] at front
  rw [shaPadMessage]
  by_cases second : algo.blockSize - algo.w / 4 ≤ context.messageBlockIndex
  · -- the length does not fit behind the message, so the block is closed with zeros first
    rw [if_pos (show algo.blockSize ≤ context.messageBlockIndex + algo.w / 4 by omega), ← List.replicate_append_replicate,
      List.append_assoc, absorb_append] at padded
    obtain ⟨zeroed, run, content⟩ := shaPutZeros_inside
      { context with messageBlock := block, messageBlockIndex := context.messageBlockIndex + 1 } below (Nat.le_refl _)
    have closed : absorb algo.blockSize algo.processMessageBlock
        (absorb algo.blockSize algo.processMessageBlock (algo.absorbed message) [0x80#8])
        (List.replicate (algo.blockSize - (context.messageBlockIndex + 1)) 0#8) =
          (algo.processMessageBlock context.intermediateHash zeroed.toList, []) := by
      rw [← absorb_append, took.state, List.singleton_append]
      dsimp only at content
      rw [front, List.take_of_length_le (Nat.le_of_eq Vector.length_toList), List.append_assoc] at content
      rw [content]
      apply absorb_full (List.cons_ne_nil _ _)
      rw [← index, List.length_cons, List.length_replicate]
      omega
    obtain ⟨context', run', good, last⟩ := shaPad_last
      (shaProcessMessageBlock { context with messageBlock := zeroed, messageBlockIndex := algo.blockSize }) took.bits
      (Nat.zero_le _)
    rw [closed] at padded
    rw [shaProcessMessageBlock, List.take_zero, Nat.sub_zero, padded] at last
    rw [if_pos second, put, Option.bind_eq_bind, Option.bind_some, run, Option.bind_some, Option.bind_some]
    dsimp only
    rw [run']
    exact ⟨_, rfl, good.trans took.good, congrArg Prod.fst last.symm⟩
  · rw [if_neg (show ¬ algo.blockSize ≤ context.messageBlockIndex + algo.w / 4 by omega)] at padded
    have short : absorb algo.blockSize algo.processMessageBlock (algo.absorbed message) [0x80#8] =
        (context.intermediateHash, (algo.absorbed message).2 ++ [0x80#8]) := by
      rw [took.state]
      apply absorb_short
      rw [← index, List.length_singleton]
      omega
    obtain ⟨context', run, good, last⟩ := shaPad_last
      { context with messageBlock := block, messageBlockIndex := context.messageBlockIndex + 1 } took.bits
      (by dsimp only; omega)
    dsimp only at last
    rw [front, ← short, padded] at last
    rw [if_neg second, put, Option.bind_eq_bind, Option.bind_some]
    dsimp only
    rw [run]
    exact ⟨_, rfl, good.trans took.good, congrArg Prod.fst last.symm⟩

/-- `Result` gives the digest of what `Input` took, now and each time it is called again. -/
theorem shaResult_took {context : ShaContext algo} {message : List Byte} (took : context.Took message) :
    ∃ context', shaResult context = some (none, some (algo.reference message), context') ∧
      context'.computed = true ∧ shaResult context' = some (none, some (algo.reference message), context') := by
  obtain ⟨padded, run, good, hash⟩ := shaPadMessage_hash took
  have stored : shaDigest algo.w algo.hashSize padded.intermediateHash = algo.reference message := by
    rw [hash, ShaAlgo.reference]
  refine ⟨{ padded with
      messageBlock := Vector.replicate algo.blockSize 0#8
      lengthHigh := 0
      lengthLow := 0
      computed := true }, ?_, rfl, ?_⟩
  · rw [shaResult, if_neg (fun wrong => wrong took.good), took.open_, shaFinalize, run, ← stored]
    rfl
  · rw [shaResult, if_neg (fun wrong => wrong good), ← stored]
    rfl

theorem shaInput_computed {context : ShaContext algo} (computed : context.computed = true) {piece : List Byte}
    (some_ : piece ≠ []) :
    shaInput context piece = some (some .stateError, { context with corrupted := some .stateError }) := by
  rw [shaInput, if_neg (fun empty => some_ (List.length_eq_zero_iff.mp empty)), if_pos computed]

end Context

end ImgEditor
