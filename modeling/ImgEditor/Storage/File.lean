import ImgEditor.Storage.Bytes

namespace Storage

/-- A regular file: its size and its bytes. Ranges that were never written read as zero. -/
@[ext] structure File where
  size : Nat
  byte : Nat → Byte
  hole : ∀ i, size ≤ i → byte i = 0#8

namespace File

def empty : File := ⟨0, fun _ => 0#8, fun _ _ => rfl⟩

def ofBytes (bytes : List Byte) : File where
  size := bytes.length
  byte := fun i => bytes.getD i 0#8
  hole := fun _ h => List.getD_eq_default _ _ h

def slice (f : File) (pos count : Nat) : List Byte :=
  (List.range count).map fun i => f.byte (pos + i)

/-- read(2) at a position of a regular file: short only at the end of the file. -/
def readAt (f : File) (pos count : Nat) : List Byte :=
  f.slice pos (min count (f.size - pos))

/-- write(2) at a position; a gap up to the position becomes a hole. -/
def writeAt (f : File) (pos : Nat) (bytes : List Byte) : File where
  size := if bytes = [] then f.size else max f.size (pos + bytes.length)
  byte := fun i => if pos ≤ i ∧ i < pos + bytes.length then bytes.getD (i - pos) 0#8 else f.byte i
  hole := by
    intro i h
    cases bytes with
    | nil =>
      have outside : ¬ (pos ≤ i ∧ i < pos + ([] : List Byte).length) := by simp
      rw [if_neg outside]
      exact f.hole i (by simpa using h)
    | cons head tail =>
      simp only [reduceCtorEq, ↓reduceIte] at h
      have outside : ¬ (pos ≤ i ∧ i < pos + (head :: tail).length) := by omega
      rw [if_neg outside]
      exact f.hole i (by omega)

def content (f : File) : List Byte := f.slice 0 f.size

@[simp] theorem slice_length (f : File) (pos count : Nat) : (f.slice pos count).length = count := by
  simp [slice]

@[simp] theorem slice_zero (f : File) (pos : Nat) : f.slice pos 0 = [] := rfl

theorem slice_getElem? (f : File) (pos count i : Nat) (bound : i < count) :
    (f.slice pos count)[i]? = some (f.byte (pos + i)) := by
  simp [slice, bound]

theorem slice_getD (f : File) (pos count i : Nat) (bound : i < count) :
    (f.slice pos count).getD i 0#8 = f.byte (pos + i) := by
  simp [List.getD_eq_getElem?_getD, slice_getElem? f pos count i bound]

theorem slice_add (f : File) (pos m n : Nat) :
    f.slice pos (m + n) = f.slice pos m ++ f.slice (pos + m) n := by
  simp only [slice, List.range_add, List.map_append, List.map_map]
  congr 1
  apply List.map_congr_left
  intro i _
  simp [Nat.add_assoc]

theorem slice_drop (f : File) (pos count i : Nat) (inside : i ≤ count) :
    (f.slice pos count).drop i = f.slice (pos + i) (count - i) := by
  have split : count = i + (count - i) := by omega
  rw [split, f.slice_add, List.drop_append_of_le_length (by simp), List.drop_of_length_le (by simp),
    List.nil_append, Nat.add_sub_cancel_left]

theorem slice_take (f : File) (pos count i : Nat) (inside : i ≤ count) :
    (f.slice pos count).take i = f.slice pos i := by
  have split : count = i + (count - i) := by omega
  rw [split, f.slice_add, List.take_append_of_le_length (by simp), List.take_of_length_le (by simp)]

theorem slice_congr {f g : File} {pos pos' count : Nat}
    (same : ∀ i, i < count → f.byte (pos + i) = g.byte (pos' + i)) :
    f.slice pos count = g.slice pos' count := by
  apply List.map_congr_left
  intro i member
  exact same i (List.mem_range.mp member)

theorem slice_inj {f g : File} {pos pos' count : Nat} (same : f.slice pos count = g.slice pos' count)
    {i : Nat} (bound : i < count) : f.byte (pos + i) = g.byte (pos' + i) := by
  have element : (f.slice pos count)[i]? = (g.slice pos' count)[i]? := by rw [same]
  rw [slice_getElem? f pos count i bound, slice_getElem? g pos' count i bound] at element
  exact Option.some.inj element

theorem readAt_full (f : File) (pos count : Nat) (inside : pos + count ≤ f.size) :
    f.readAt pos count = f.slice pos count := by
  rw [readAt, Nat.min_eq_left (by omega)]

theorem readAt_length (f : File) (pos count : Nat) :
    (f.readAt pos count).length = min count (f.size - pos) := by
  simp [readAt]

@[simp] theorem writeAt_nil (f : File) (pos : Nat) : f.writeAt pos [] = f := by
  ext : 1
  · simp [writeAt]
  · funext i
    simp only [writeAt, List.length_nil, Nat.add_zero]
    rw [if_neg (by omega)]

theorem writeAt_size (f : File) (pos : Nat) (bytes : List Byte) (nonempty : bytes ≠ []) :
    (f.writeAt pos bytes).size = max f.size (pos + bytes.length) := by
  simp [writeAt, nonempty]

theorem writeAt_size_le (f : File) (pos : Nat) (bytes : List Byte) :
    (f.writeAt pos bytes).size ≤ max f.size (pos + bytes.length) := by
  by_cases nonempty : bytes = []
  · simp [nonempty]
  · rw [writeAt_size f pos bytes nonempty]

theorem size_le_writeAt (f : File) (pos : Nat) (bytes : List Byte) :
    f.size ≤ (f.writeAt pos bytes).size := by
  by_cases nonempty : bytes = []
  · simp [nonempty]
  · rw [writeAt_size f pos bytes nonempty]
    omega

theorem writeAt_byte_inside (f : File) (pos : Nat) (bytes : List Byte) (i : Nat)
    (lower : pos ≤ i) (upper : i < pos + bytes.length) :
    (f.writeAt pos bytes).byte i = bytes.getD (i - pos) 0#8 := by
  simp [writeAt, lower, upper]

theorem writeAt_byte_outside (f : File) (pos : Nat) (bytes : List Byte) (i : Nat)
    (outside : i < pos ∨ pos + bytes.length ≤ i) : (f.writeAt pos bytes).byte i = f.byte i := by
  simp only [writeAt]
  rw [if_neg (by omega)]

theorem writeAt_slice_self (f : File) (pos : Nat) (bytes : List Byte) :
    (f.writeAt pos bytes).slice pos bytes.length = bytes := by
  apply List.ext_getElem
  · simp
  · intro i h bound
    simp only [slice, List.getElem_map, List.getElem_range]
    rw [writeAt_byte_inside _ _ _ _ (by omega) (by omega)]
    simp [bound]

theorem writeAt_slice_outside (f : File) (pos : Nat) (bytes : List Byte) (start count : Nat)
    (outside : start + count ≤ pos ∨ pos + bytes.length ≤ start) :
    (f.writeAt pos bytes).slice start count = f.slice start count := by
  apply slice_congr
  intro i bound
  exact writeAt_byte_outside _ _ _ _ (by omega)

theorem writeAt_append (f : File) (pos : Nat) (left right : List Byte) :
    (f.writeAt pos left).writeAt (pos + left.length) right = f.writeAt pos (left ++ right) := by
  by_cases hl : left = []
  · simp [hl]
  by_cases hr : right = []
  · simp [hr]
  ext : 1
  · rw [writeAt_size _ _ _ hr, writeAt_size _ _ _ hl, writeAt_size _ _ _ (by simp [hl]),
      List.length_append]
    omega
  · funext i
    simp only [writeAt, List.length_append]
    by_cases first : pos ≤ i ∧ i < pos + left.length
    · rw [if_neg (by omega), if_pos first, if_pos (by omega),
        List.getD_append _ _ _ _ (by omega)]
    · by_cases second : pos + left.length ≤ i ∧ i < pos + left.length + right.length
      · rw [if_pos second, if_pos (by omega), List.getD_append_right _ _ _ _ (by omega)]
        congr 1
        omega
      · rw [if_neg second, if_neg first, if_neg (by omega)]

def Holds (f : File) (pos : Nat) (bytes : List Byte) : Prop :=
  pos + bytes.length ≤ f.size ∧ f.slice pos bytes.length = bytes

theorem writeAt_holds (f : File) (pos : Nat) (bytes : List Byte) (nonempty : bytes ≠ []) :
    (f.writeAt pos bytes).Holds pos bytes := by
  refine ⟨?_, f.writeAt_slice_self pos bytes⟩
  rw [writeAt_size f pos bytes nonempty]
  exact Nat.le_max_right _ _

theorem Holds.readAt {f : File} {pos : Nat} {bytes : List Byte} (stored : f.Holds pos bytes) :
    f.readAt pos bytes.length = bytes := by
  rw [readAt_full f pos _ stored.1, stored.2]

theorem Holds.mono {f g : File} {pos : Nat} {bytes : List Byte} (stored : f.Holds pos bytes)
    (grows : f.size ≤ g.size)
    (same : ∀ i, pos ≤ i → i < pos + bytes.length → g.byte i = f.byte i) : g.Holds pos bytes := by
  refine ⟨Nat.le_trans stored.1 grows, ?_⟩
  rw [← stored.2, slice_length]
  apply slice_congr
  intro i bound
  exact same (pos + i) (by omega) (by omega)

@[simp] theorem ofBytes_size (bytes : List Byte) : (ofBytes bytes).size = bytes.length := rfl

@[simp] theorem ofBytes_byte (bytes : List Byte) (i : Nat) :
    (ofBytes bytes).byte i = bytes.getD i 0#8 := rfl

@[simp] theorem ofBytes_nil : ofBytes [] = empty := by
  ext i
  · rfl
  · simp [ofBytes, empty]

theorem ofBytes_content (bytes : List Byte) : (ofBytes bytes).content = bytes := by
  apply List.ext_getElem
  · simp [content]
  · intro i h bound
    simp [content, slice, bound]

theorem ofBytes_inj {left right : List Byte} (same : ofBytes left = ofBytes right) : left = right := by
  rw [← ofBytes_content left, same, ofBytes_content]

theorem ofBytes_eq_writeAt (bytes : List Byte) : ofBytes bytes = empty.writeAt 0 bytes := by
  by_cases nonempty : bytes = []
  · simp [nonempty]
  · ext : 1
    · rw [writeAt_size _ _ _ nonempty]
      simp [empty]
    · funext i
      by_cases bound : i < bytes.length
      · rw [writeAt_byte_inside _ _ _ _ (by omega) (by omega)]
        simp
      · rw [writeAt_byte_outside _ _ _ _ (by omega)]
        exact List.getD_eq_default _ _ (Nat.le_of_not_lt bound)

theorem ofBytes_writeAt_end (bytes more : List Byte) :
    (ofBytes bytes).writeAt bytes.length more = ofBytes (bytes ++ more) := by
  have appended := writeAt_append empty 0 bytes more
  rwa [Nat.zero_add, ← ofBytes_eq_writeAt, ← ofBytes_eq_writeAt] at appended

theorem ofBytes_slice_left (bytes more : List Byte) : (ofBytes (bytes ++ more)).slice 0 bytes.length = bytes := by
  apply List.ext_getElem
  · simp
  · intro i _ bound
    simp [slice, List.getElem?_append_left bound, bound]

theorem ofBytes_slice_right (bytes more : List Byte) :
    (ofBytes (bytes ++ more)).slice bytes.length more.length = more := by
  rw [← ofBytes_writeAt_end]
  exact writeAt_slice_self _ _ _

end File

end Storage
