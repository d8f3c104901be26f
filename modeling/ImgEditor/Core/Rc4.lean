import ImgEditor.Storage.Keystream
import Mathlib.Logic.Equiv.Basic

namespace ImgEditor

open Storage

/-- The arrays of `rc4_encode` and its index `j` while they are filled. -/
structure Rc4Fill where
  s : Vector Byte 256
  k : Vector Byte 256
  j : Nat

def rc4Fill (key : Vector Byte 16) (st : Rc4Fill) (i : Fin 256) : Rc4Fill :=
  let j := st.j &&& 0x0f
  ⟨st.s.set i (BitVec.ofNat 8 i), st.k.set i (key.get (Fin.ofNat 16 j)), j + 1⟩

/-- The state array and the indices; sums are reduced modulo 256 as in the source. -/
structure Rc4 where
  s : Vector Byte 256
  i : Fin 256
  j : Fin 256

def rc4Swap (s : Vector Byte 256) (i j : Fin 256) : Vector Byte 256 :=
  let temp := s.get i
  (s.set i (s.get j)).set j temp

def rc4Mix (k : Vector Byte 256) (st : Rc4) (i : Fin 256) : Rc4 :=
  let j := Fin.ofNat 256 (st.j.val + (st.s.get i).toNat + (k.get i).toNat)
  ⟨rc4Swap st.s i j, i, j⟩

/-- The key setup of `rc4_encode`; `junk` is what its arrays hold before. -/
def rc4Start (junk : Rc4Fill) (key : Vector Byte 16) : Rc4 :=
  let fill := (List.finRange 256).foldl (rc4Fill key) { junk with j := 0 }
  let mixed := (List.finRange 256).foldl (rc4Mix fill.k) ⟨fill.s, 0, 0⟩
  ⟨mixed.s, 0, 0⟩

def rc4Next (st : Rc4) : Byte × Rc4 :=
  let i := Fin.ofNat 256 (st.i.val + 1)
  let j := Fin.ofNat 256 (st.j.val + (st.s.get i).toNat)
  let s := rc4Swap st.s i j
  let t := Fin.ofNat 256 ((s.get i).toNat + (s.get j).toNat % 256)
  (s.get t, ⟨s, i, j⟩)

/-- A pass of the last loop of `rc4_encode`; `none` is a read behind the buffer. -/
def rc4Pass (st : List Byte × Rc4) (ptr : Nat) : Option (List Byte × Rc4) :=
  match st.1[ptr]? with
  | none => none
  | some c =>
    let (k, rc4) := rc4Next st.2
    some (st.1.set ptr (c ^^^ k), rc4)

def rc4Encode (junk : Rc4Fill) (buf : List Byte) (len : Int) (key : Vector Byte 16) : Option (List Byte) :=
  ((List.range len.toNat).foldlM rc4Pass (buf, rc4Start junk key)).map Prod.fst

theorem rc4Pass_eq : rc4Pass = xorPass rc4Next := by
  funext st ptr
  rw [rc4Pass, xorPass]
  cases st.1[ptr]? <;> rfl

/-- The array holds each of 0..255 once. -/
def Rc4Permuted (s : Vector Byte 256) : Prop := Function.Bijective s.get

theorem set_get (s : Vector Byte 256) (place i : Fin 256) (c : Byte) :
    (s.set place c).get i = if i = place then c else s.get i := by
  by_cases here : i = place
  · rw [if_pos here, here]
    exact Vector.getElem_set_self _
  · rw [if_neg here]
    exact Vector.getElem_set_ne place.isLt i.isLt fun same => here (Fin.ext same.symm)

theorem rc4Swap_get (s : Vector Byte 256) (i j : Fin 256) : (rc4Swap s i j).get = s.get ∘ Equiv.swap i j := by
  funext k
  rw [rc4Swap, set_get, set_get, Function.comp_apply, Equiv.swap_apply_def]
  by_cases last : k = j
  · by_cases first : k = i
    · rw [if_pos last, if_pos first, ← first, ← last]
    · rw [if_pos last, if_neg first, if_pos last]
  · by_cases first : k = i
    · rw [if_neg last, if_pos first, if_pos first]
    · rw [if_neg last, if_neg first, if_neg first, if_neg last]

theorem Rc4Permuted.swap {s : Vector Byte 256} (permuted : Rc4Permuted s) (i j : Fin 256) :
    Rc4Permuted (rc4Swap s i j) := by
  rw [Rc4Permuted, rc4Swap_get]
  exact permuted.comp (Equiv.swap i j).bijective

theorem rc4Next_permuted {st : Rc4} (permuted : Rc4Permuted st.s) : Rc4Permuted (rc4Next st).2.s := permuted.swap _ _

/-- The first loop writes every element that it reaches. -/
theorem rc4Fill_get (key : Vector Byte 16) (places : List (Fin 256)) {st : Rc4Fill} {i : Fin 256}
    (written : i ∈ places ∨ st.s.get i = BitVec.ofNat 8 i) :
    (places.foldl (rc4Fill key) st).s.get i = BitVec.ofNat 8 i := by
  induction places generalizing st with
  | nil => exact written.resolve_left List.not_mem_nil
  | cons place rest ih =>
    rw [List.foldl_cons]
    apply ih
    rw [rc4Fill, set_get]
    by_cases here : i = place
    · rw [if_pos here, here]
      exact .inr rfl
    · rw [if_neg here]
      exact written.imp_left (List.mem_of_ne_of_mem here)

theorem rc4Mix_permuted (k : Vector Byte 256) {st : Rc4} (permuted : Rc4Permuted st.s) (places : List (Fin 256)) :
    Rc4Permuted (places.foldl (rc4Mix k) st).s := by
  induction places generalizing st with
  | nil => exact permuted
  | cons place rest ih => exact ih (permuted.swap _ _)

theorem rc4Fill_states (junk : Rc4Fill) (key : Vector Byte 16) :
    ((List.finRange 256).foldl (rc4Fill key) { junk with j := 0 }).s = Vector.ofFn fun i => BitVec.ofNat 8 i := by
  apply Vector.ext
  intro i inside
  rw [Vector.getElem_ofFn]
  exact @rc4Fill_get key (List.finRange 256) { junk with j := 0 } ⟨i, inside⟩ (.inl (List.mem_finRange _))

theorem rc4Start_permuted (junk : Rc4Fill) (key : Vector Byte 16) : Rc4Permuted (rc4Start junk key).s := by
  apply rc4Mix_permuted
  have filled : (Vector.ofFn fun i : Fin 256 => (BitVec.ofNat 8 i : Byte)).get = fun i : Fin (2 ^ 8) => BitVec.ofFin i := by
    funext i
    exact (Vector.getElem_ofFn i.isLt).trans (BitVec.eq_of_toNat_eq (Nat.mod_eq_of_lt i.isLt))
  rw [rc4Fill_states, Rc4Permuted, filled]
  exact ⟨fun _ _ same => congrArg BitVec.toFin same, fun c => ⟨c.toFin, rfl⟩⟩

/-- Two fills at the same place of the key agree on what they write. -/
theorem rc4Fill_agree (key : Vector Byte 16) (places : List (Fin 256)) {st st' : Rc4Fill} (same : st.j = st'.j) {i : Fin 256}
    (agree : i ∈ places ∨ st.k.get i = st'.k.get i) :
    (places.foldl (rc4Fill key) st).k.get i = (places.foldl (rc4Fill key) st').k.get i := by
  induction places generalizing st st' with
  | nil => exact agree.resolve_left List.not_mem_nil
  | cons place rest ih =>
    rw [List.foldl_cons, List.foldl_cons]
    apply ih
    · rw [rc4Fill, rc4Fill, same]
    · rw [rc4Fill, rc4Fill, same, set_get, set_get]
      by_cases here : i = place
      · rw [if_pos here, if_pos here]
        exact .inr rfl
      · rw [if_neg here, if_neg here]
        exact agree.imp_left (List.mem_of_ne_of_mem here)

/-- The key setup overwrites whatever its arrays hold. -/
theorem rc4Start_junk (junk junk' : Rc4Fill) (key : Vector Byte 16) : rc4Start junk key = rc4Start junk' key := by
  have keys : ((List.finRange 256).foldl (rc4Fill key) { junk with j := 0 }).k =
      ((List.finRange 256).foldl (rc4Fill key) { junk' with j := 0 }).k := by
    apply Vector.ext
    intro i inside
    exact @rc4Fill_agree key (List.finRange 256) { junk with j := 0 } { junk' with j := 0 } rfl ⟨i, inside⟩
      (.inl (List.mem_finRange _))
  rw [rc4Start, rc4Start, rc4Fill_states, rc4Fill_states, keys]

/-- The state behind `n` bytes, from the key alone. -/
def rc4After (key : Vector Byte 16) (n : Nat) : Rc4 :=
  streamState rc4Next (rc4Start ⟨.replicate 256 0, .replicate 256 0, 0⟩ key) n

def rc4Keystream (key : Vector Byte 16) (n : Nat) : Byte := (rc4Next (rc4After key n)).1

theorem rc4After_permuted (key : Vector Byte 16) (n : Nat) : Rc4Permuted (rc4After key n).s :=
  @streamState_invariant _ rc4Next (fun st => Rc4Permuted st.s) _ (rc4Start_permuted _ key) (fun _ => rc4Next_permuted) n

/-- What holds behind the first `n` passes over a buffer: the array is permuted, and the bytes so far are added to a
keystream that knows the key only. -/
structure Rc4Right (key : Vector Byte 16) (buf : List Byte) (n : Nat) (done : List Byte) (st : Rc4) : Prop where
  permuted : Rc4Permuted st.s
  state : st = rc4After key n
  length : done.length = buf.length
  encoded : ∀ p (inside : p < buf.length), done[p]? = some (if p < n then buf[p] ^^^ rc4Keystream key p else buf[p])

theorem rc4Start_after (junk : Rc4Fill) (key : Vector Byte 16) : rc4Start junk key = rc4After key 0 := rc4Start_junk _ _ _

/-- The bytes of a buffer, the first `n` of them with the keystream. -/
def rc4Stream (key : Vector Byte 16) (n : Nat) (buf : List Byte) : List Byte :=
  xorStream rc4Next (rc4After key 0) (buf.take n) ++ buf.drop n

section Encode

variable {junk : Rc4Fill} {key : Vector Byte 16} {buf : List Byte}

theorem rc4Pass_run {n : Nat} (inside : n ≤ buf.length) :
    (List.range n).foldlM rc4Pass (buf, rc4Start junk key) = some (rc4Stream key n buf, rc4After key n) := by
  rw [rc4Pass_eq, xorPass_run _ inside, rc4Start_after]
  rfl

theorem rc4Stream_length {n : Nat} (inside : n ≤ buf.length) : (rc4Stream key n buf).length = buf.length := by
  rw [rc4Stream, List.length_append, xorStream_length, List.length_take, List.length_drop]
  omega

theorem rc4Stream_twice {n : Nat} (inside : n ≤ buf.length) : rc4Stream key n (rc4Stream key n buf) = buf := by
  have front : (xorStream rc4Next (rc4After key 0) (buf.take n)).length = n := by
    rw [xorStream_length, List.length_take]
    omega
  have taken : (rc4Stream key n buf).take n = xorStream rc4Next (rc4After key 0) (buf.take n) := List.take_left' front
  have left : (rc4Stream key n buf).drop n = buf.drop n := List.drop_left' front
  rw [rc4Stream, taken, left, xorStream_xorStream, List.take_append_drop]

theorem rc4Stream_byte {n p : Nat} (length : n ≤ buf.length) (inside : p < buf.length) :
    (rc4Stream key n buf)[p]? = some (if p < n then buf[p] ^^^ rc4Keystream key p else buf[p]) := by
  have front : (xorStream rc4Next (rc4After key 0) (buf.take n)).length = n := by
    rw [xorStream_length, List.length_take]
    omega
  by_cases below : p < n
  · rw [if_pos below, rc4Stream, List.getElem?_append_left (by omega), xorStream, List.getElem?_mapIdx,
      List.getElem?_take_of_lt below, List.getElem?_eq_getElem inside]
    rfl
  · rw [if_neg below, rc4Stream, List.getElem?_append_right (by omega), front, List.getElem?_drop,
      Nat.add_sub_of_le (by omega), List.getElem?_eq_getElem inside]

theorem rc4Encode_stream {len : Int} (inside : len ≤ buf.length) :
    rc4Encode junk buf len key = some (rc4Stream key len.toNat buf) := by
  rw [rc4Encode, rc4Pass_run (by omega)]
  rfl

end Encode

/-- Encoding twice gives the buffer back, the array stays permuted, and the data does not reach the keystream. -/
theorem rc4Encode_right (junk : Rc4Fill) (key : Vector Byte 16) (buf : List Byte) :
    Rc4Permuted (rc4Start junk key).s ∧
      (∀ n ≤ buf.length, ∃ done st, (List.range n).foldlM rc4Pass (buf, rc4Start junk key) = some (done, st) ∧
        Rc4Right key buf n done st) ∧
      ∀ junk' (len : Int), len ≤ buf.length →
        (rc4Encode junk buf len key).bind (rc4Encode junk' · len key) = some buf := by
  refine ⟨rc4Start_permuted junk key, fun n inside => ⟨_, _, rc4Pass_run inside, ?_⟩, fun junk' len inside => ?_⟩
  · exact ⟨rc4After_permuted key n, rfl, rc4Stream_length inside, fun p => rc4Stream_byte inside⟩
  · have below : len.toNat ≤ buf.length := by omega
    have inside' : len ≤ (rc4Stream key len.toNat buf).length := by
      rw [rc4Stream_length below]
      exact inside
    rw [rc4Encode_stream inside, Option.bind_some, rc4Encode_stream inside', rc4Stream_twice below]

theorem rc4Encode_right_letters :
    (rc4Encode ⟨.replicate 256 1, .replicate 256 2, 3⟩ [97, 98, 99] 3 (.replicate 16 7)).bind
      (rc4Encode ⟨.replicate 256 4, .replicate 256 5, 6⟩ · 3 (.replicate 16 7)) = some [97, 98, 99] :=
  (rc4Encode_right _ _ [97, 98, 99]).2.2 _ 3 (by decide)

end ImgEditor
