import ImgEditor.Storage.Bytes

namespace Storage

/-! A hash that takes its message block by block, and what stands behind the message to fill the last one. -/

section BlockHash

variable {σ : Type} (size : Nat) (process : σ → List Byte → σ)

/-- One more byte of the message; a full block goes into the state. -/
def absorbByte (st : σ × List Byte) (c : Byte) : σ × List Byte :=
  if st.2.length + 1 = size then (process st.1 (st.2 ++ [c]), []) else (st.1, st.2 ++ [c])

def absorb (st : σ × List Byte) (bytes : List Byte) : σ × List Byte := bytes.foldl (absorbByte size process) st

def blocks (count : Nat) (bytes : List Byte) : List (List Byte) :=
  (List.range count).map fun i => (bytes.drop (size * i)).take size

/-- A one bit and as many zeros as make the message and its tail whole blocks. -/
def padding (n : Nat) (tail : List Byte) : List Byte :=
  0x80#8 :: List.replicate ((size - (n + 1 + tail.length) % size) % size) 0#8 ++ tail

/-- The state behind the blocks of the padded message. -/
def blockHash (start : σ) (tail message : List Byte) : σ :=
  let padded := message ++ padding size message.length tail
  (blocks size (padded.length / size) padded).foldl process start

variable {size process} {st : σ × List Byte} {bytes : List Byte}

theorem absorb_append (st : σ × List Byte) (left right : List Byte) :
    absorb size process st (left ++ right) = absorb size process (absorb size process st left) right :=
  List.foldl_append

theorem absorb_short (short : st.2.length + bytes.length < size) :
    absorb size process st bytes = (st.1, st.2 ++ bytes) := by
  induction bytes generalizing st with
  | nil =>
    rw [List.append_nil]
    rfl
  | cons c bytes ih =>
    rw [List.length_cons] at short
    have here : absorbByte size process st c = (st.1, st.2 ++ [c]) := if_neg (by omega)
    rw [absorb, List.foldl_cons, here]
    have rest := @ih (st.1, st.2 ++ [c]) (by
      rw [List.length_append, List.length_singleton]
      omega)
    rw [List.append_assoc] at rest
    exact rest

theorem absorb_full (some_ : bytes ≠ []) (full : st.2.length + bytes.length = size) :
    absorb size process st bytes = (process st.1 (st.2 ++ bytes), []) := by
  have last : bytes.dropLast ++ [bytes.getLast some_] = bytes := List.dropLast_concat_getLast some_
  have positive : 0 < bytes.length := List.length_pos_iff.mpr some_
  have front : absorb size process st bytes.dropLast = (st.1, st.2 ++ bytes.dropLast) := absorb_short (by
    rw [List.length_dropLast]
    omega)
  have here : (st.2 ++ bytes.dropLast).length + 1 = size := by
    rw [List.length_append, List.length_dropLast]
    omega
  rw [← last, absorb_append, front]
  show absorbByte size process (st.1, st.2 ++ bytes.dropLast) (bytes.getLast some_) = _
  rw [absorbByte, if_pos here, List.append_assoc]

/-- Behind any bytes less than a block is left over. -/
theorem absorb_left (room : st.2.length < size) :
    (absorb size process st bytes).2.length = (st.2.length + bytes.length) % size := by
  induction bytes generalizing st with
  | nil => exact (Nat.mod_eq_of_lt room).symm
  | cons c bytes ih =>
    rw [absorb, List.foldl_cons, List.length_cons]
    by_cases full : st.2.length + 1 = size
    · rw [absorbByte, if_pos full]
      have rest := @ih (process st.1 (st.2 ++ [c]), []) (by
        rw [List.length_nil]
        omega)
      have around : st.2.length + (bytes.length + 1) = bytes.length + size := by omega
      rw [around, Nat.add_mod_right]
      rw [List.length_nil, Nat.zero_add] at rest
      exact rest
    · rw [absorbByte, if_neg full]
      have longer : (st.2 ++ [c]).length = st.2.length + 1 := List.length_append
      have rest := @ih (st.1, st.2 ++ [c]) (by
        rw [longer]
        omega)
      rw [longer, Nat.add_assoc, Nat.add_comm 1] at rest
      exact rest

theorem blocks_succ (count : Nat) (bytes : List Byte) :
    blocks size (count + 1) bytes = blocks size count bytes ++ [(bytes.drop (size * count)).take size] := by
  rw [blocks, List.range_succ, List.map_append]
  rfl

theorem absorb_blocks (positive : 0 < size) {count : Nat} (start : σ) (whole : bytes.length = size * count) :
    absorb size process (start, []) bytes = ((blocks size count bytes).foldl process start, []) := by
  induction count generalizing bytes with
  | zero =>
    rw [List.length_eq_zero_iff.mp whole]
    rfl
  | succ count ih =>
    rw [Nat.mul_succ] at whole
    have split : bytes.take (size * count) ++ bytes.drop (size * count) = bytes := List.take_append_drop _ _
    have front : (bytes.take (size * count)).length = size * count := by
      rw [List.length_take]
      omega
    have last : (bytes.drop (size * count)).length = size := by
      rw [List.length_drop]
      omega
    have same : blocks size count (bytes.take (size * count)) = blocks size count bytes := by
      apply List.map_congr_left
      intro i inside
      have below : size * (i + 1) ≤ size * count := Nat.mul_le_mul_left _ (List.mem_range.mp inside)
      rw [Nat.mul_succ] at below
      rw [List.drop_take, List.take_take, Nat.min_eq_left (by omega)]
    have all : absorb size process ((blocks size count bytes).foldl process start, []) (bytes.drop (size * count)) =
        (process ((blocks size count bytes).foldl process start) (bytes.drop (size * count)), []) := by
      apply absorb_full
      · rw [← List.length_pos_iff, last]
        exact positive
      · rw [last]
        exact Nat.zero_add size
    conv_lhs => rw [← split]
    rw [absorb_append, ih front, same, all, blocks_succ, List.foldl_append, List.take_of_length_le (Nat.le_of_eq last)]
    rfl

theorem padding_length (n : Nat) (tail : List Byte) :
    (padding size n tail).length = 1 + (size - (n + 1 + tail.length) % size) % size + tail.length := by
  rw [padding, List.length_append, List.length_cons, List.length_replicate]
  omega

theorem padding_whole (positive : 0 < size) (n : Nat) (tail : List Byte) :
    size ∣ n + (padding size n tail).length := by
  rw [padding_length]
  have below : (n + 1 + tail.length) % size < size := Nat.mod_lt _ positive
  have parts : (n + 1 + tail.length) % size + size * ((n + 1 + tail.length) / size) = n + 1 + tail.length :=
    Nat.mod_add_div _ _
  by_cases whole : (n + 1 + tail.length) % size = 0
  · rw [whole, Nat.sub_zero, Nat.mod_self]
    exact ⟨(n + 1 + tail.length) / size, by omega⟩
  · rw [Nat.mod_eq_of_lt (show size - (n + 1 + tail.length) % size < size by omega)]
    exact ⟨(n + 1 + tail.length) / size + 1, by rw [Nat.mul_succ]; omega⟩

/-- The zeros as a block that holds `rest` bytes of the message shows them. -/
theorem padding_zeros {n rest : Nat} (tail : List Byte) (room : tail.length < size) (left : rest = n % size) :
    (size - (n + 1 + tail.length) % size) % size =
      if size ≤ rest + tail.length then size - (rest + 1) + (size - tail.length) else size - tail.length - (rest + 1) := by
  have below : rest < size := left ▸ Nat.mod_lt _ (by omega)
  have same : (n + 1 + tail.length) % size = (rest + 1 + tail.length) % size := by
    rw [left, Nat.add_assoc, Nat.add_assoc, Nat.mod_add_mod]
  rw [same]
  by_cases second : size ≤ rest + tail.length
  · have wrapped : (rest + 1 + tail.length) % size = rest + 1 + tail.length - size := by
      rw [Nat.mod_eq_sub_mod (by omega), Nat.mod_eq_of_lt (by omega)]
    rw [if_pos second, wrapped, Nat.mod_eq_of_lt (by omega)]
    omega
  · rw [if_neg second]
    by_cases whole : rest + 1 + tail.length = size
    · rw [whole, Nat.mod_self, Nat.sub_zero, Nat.mod_self]
      omega
    · rw [Nat.mod_eq_of_lt (show rest + 1 + tail.length < size by omega), Nat.mod_eq_of_lt (by omega)]
      omega

/-- The machine that takes the padded message byte by byte ends in the hash. -/
theorem absorb_padded (positive : 0 < size) (start : σ) (tail message : List Byte) :
    absorb size process (absorb size process (start, []) message) (padding size message.length tail) =
      (blockHash size process start tail message, []) := by
  rw [← absorb_append]
  apply absorb_blocks positive
  rw [List.length_append]
  exact (Nat.mul_div_cancel' (padding_whole positive _ tail)).symm

end BlockHash

end Storage
