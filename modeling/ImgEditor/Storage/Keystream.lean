import ImgEditor.Storage.Bytes

namespace Storage

/-! A stream cipher: a generator of bytes whose output is added to the data. -/

section Keystream

variable {σ : Type} (next : σ → Byte × σ)

/-- The generator behind its first `n` bytes. -/
def streamState (start : σ) : Nat → σ
  | 0 => start
  | n + 1 => (next (streamState start n)).2

def streamByte (start : σ) (n : Nat) : Byte := (next (streamState next start n)).1

def xorStream (start : σ) (bytes : List Byte) : List Byte := bytes.mapIdx fun n c => c ^^^ streamByte next start n

/-- A pass of the loop that adds the keystream in place, `none` outside of the buffer. -/
def xorPass (st : List Byte × σ) (ptr : Nat) : Option (List Byte × σ) :=
  st.1[ptr]?.map fun c => (st.1.set ptr (c ^^^ (next st.2).1), (next st.2).2)

variable {next}

theorem streamState_invariant {P : σ → Prop} {start : σ} (holds : P start) (keeps : ∀ st, P st → P (next st).2) (n : Nat) :
    P (streamState next start n) := by
  induction n with
  | zero => exact holds
  | succ n ih => exact keeps _ ih

theorem xorStream_length (start : σ) (bytes : List Byte) : (xorStream next start bytes).length = bytes.length :=
  List.length_mapIdx

theorem xorStream_xorStream (start : σ) (bytes : List Byte) :
    xorStream next start (xorStream next start bytes) = bytes := by
  apply List.ext_getElem
  · rw [xorStream_length, xorStream_length]
  · intro n _ inside
    simp only [xorStream, List.getElem_mapIdx, BitVec.xor_assoc, BitVec.xor_self, BitVec.xor_zero]

theorem xorStream_concat (start : σ) (bytes : List Byte) (c : Byte) :
    xorStream next start (bytes ++ [c]) = xorStream next start bytes ++ [c ^^^ streamByte next start bytes.length] := by
  rw [xorStream, List.mapIdx_append]
  simp [xorStream]

/-- The loop over the first `n` bytes of a buffer. -/
theorem xorPass_run (start : σ) {bytes : List Byte} {n : Nat} (inside : n ≤ bytes.length) :
    (List.range n).foldlM (xorPass next) (bytes, start) =
      some (xorStream next start (bytes.take n) ++ bytes.drop n, streamState next start n) := by
  induction n with
  | zero => rfl
  | succ n ih =>
    have below : n < bytes.length := inside
    have here : (xorStream next start (bytes.take n)).length = n := by
      rw [xorStream_length, List.length_take]
      omega
    have split : bytes.drop n = bytes[n] :: bytes.drop (n + 1) := List.drop_eq_getElem_cons below
    have front : bytes.take (n + 1) = bytes.take n ++ [bytes[n]] := List.take_succ_eq_append_getElem below
    have count : (bytes.take n).length = n := by
      rw [List.length_take]
      omega
    rw [List.range_succ, List.foldlM_append, ih (Nat.le_of_lt below), Option.bind_eq_bind, Option.bind_some,
      List.foldlM_cons, xorPass]
    dsimp only
    rw [split, List.getElem?_append_right (by omega), here, Nat.sub_self, List.getElem?_cons_zero, Option.map_some,
      List.set_append_right _ _ (by omega), here, Nat.sub_self, List.set_cons_zero, front, xorStream_concat, count,
      List.append_assoc]
    rfl

end Keystream

end Storage
