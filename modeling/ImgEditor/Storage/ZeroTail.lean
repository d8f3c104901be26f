import ImgEditor.Storage.File

namespace Storage.File

/-- The same bytes, with a longer tail of zeros. -/
structure ZeroTail (long short : File) : Prop where
  size : short.size ≤ long.size
  byte : ∀ i, long.byte i = short.byte i

variable {long short : File}

theorem ZeroTail.refl (f : File) : f.ZeroTail f := ⟨le_refl _, fun _ => rfl⟩

theorem ZeroTail.write (tail : long.ZeroTail short) (pos : Nat) (bytes : List Byte) :
    (long.writeAt pos bytes).ZeroTail (short.writeAt pos bytes) := by
  constructor
  · by_cases none : bytes = []
    · simpa [none] using tail.size
    · rw [writeAt_size _ _ _ none, writeAt_size _ _ _ none]
      exact max_le_max_right _ tail.size
  · intro i
    simp only [writeAt, tail.byte i]

/-- Zeros behind the end change no byte. -/
theorem ZeroTail.zeros (tail : long.ZeroTail short) {pos : Nat} (ended : long.size ≤ pos) (count : Nat) :
    (long.writeAt pos (List.replicate count 0#8)).ZeroTail short := by
  constructor
  · exact tail.size.trans (size_le_writeAt _ _ _)
  · intro i
    rw [← tail.byte i]
    by_cases inside : pos ≤ i ∧ i < pos + (List.replicate count 0#8).length
    · rw [writeAt_byte_inside _ _ _ _ inside.1 inside.2, long.hole i (by omega)]
      rw [List.getD_eq_getElem?_getD, List.getElem?_replicate]
      split <;> rfl
    · rw [writeAt_byte_outside _ _ _ _ (by omega)]

theorem zeroTail_iff : long.ZeroTail short ↔
    short.content <+: long.content ∧ ∀ c ∈ long.content.drop short.content.length, c = 0#8 := by
  have length : short.content.length = short.size := slice_length _ _ _
  constructor
  · intro tail
    constructor
    · have front : short.content = long.content.take short.size := by
        rw [content, content, slice_take _ _ _ _ tail.size]
        exact slice_congr fun i _ => (tail.byte _).symm
      rw [front]
      exact List.take_prefix _ _
    · intro c member
      rw [length, content, slice_drop _ _ _ _ tail.size] at member
      obtain ⟨i, _, rfl⟩ := List.mem_map.mp member
      rw [tail.byte]
      exact short.hole _ (by omega)
  · rintro ⟨front, zeros⟩
    have size : short.size ≤ long.size := by
      have lengths := front.length_le
      rwa [length, content, slice_length] at lengths
    refine ⟨size, fun i => ?_⟩
    by_cases inside : i < short.size
    · have here : long.content[i]? = short.content[i]? := by
        obtain ⟨more, shape⟩ := front
        rw [← shape, List.getElem?_append_left (by rwa [length])]
      rw [content, content, slice_getElem? _ _ _ _ (by omega), slice_getElem? _ _ _ _ inside, Nat.zero_add] at here
      exact Option.some.inj here
    · rw [short.hole i (by omega)]
      by_cases behind : i < long.size
      · apply zeros
        rw [length, content, slice_drop _ _ _ _ size]
        exact List.mem_map.mpr ⟨i - short.size, List.mem_range.mpr (by omega), by congr 1; omega⟩
      · exact long.hole i (by omega)

end Storage.File
