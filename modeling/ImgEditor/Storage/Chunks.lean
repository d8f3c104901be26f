import Mathlib.Data.List.GetD
import ImgEditor.Storage.File

namespace Storage

namespace File

theorem readAt_getD (f : File) {pos count i : Nat} (bound : i < count) : (f.readAt pos count).getD i 0#8 = f.byte (pos + i) := by
  by_cases inside : i < (f.readAt pos count).length
  · rw [readAt_length] at inside
    exact f.slice_getD _ _ _ inside
  · rw [List.getD_eq_default _ _ (Nat.not_lt.mp inside)]
    rw [readAt_length] at inside
    exact (f.hole _ (by omega)).symm

/-- A stretch of another file behind the end of a file. What cannot be read is zero. -/
theorem writeAt_readAt_byte (f src : File) {pos : Nat} (place count i : Nat) (behind : f.size ≤ pos) :
    (f.writeAt pos (src.readAt place count)).byte i =
      if i < pos then f.byte i else if i - pos < count then src.byte (place + (i - pos)) else 0#8 := by
  by_cases before : i < pos
  · rw [if_pos before]
    exact writeAt_byte_outside _ _ _ _ (by omega)
  rw [if_neg before]
  have length := src.readAt_length place count
  by_cases inside : i < pos + (src.readAt place count).length
  · rw [if_pos (by omega), writeAt_byte_inside _ _ _ _ (by omega) inside, readAt_getD _ (by omega)]
  · rw [writeAt_byte_outside _ _ _ _ (by omega), f.hole _ (by omega)]
    split
    · exact (src.hole _ (by omega)).symm
    · rfl

theorem writeAt_readAt_size (f src : File) {pos : Nat} (place : Nat) {count : Nat} (behind : f.size ≤ pos) (some : 0 < count) :
    (f.writeAt pos (src.readAt place count)).size ≤ pos + count ∧
      ((f.writeAt pos (src.readAt place count)).size = pos + count ↔ place + (count - 1) < src.size) := by
  have length := src.readAt_length place count
  by_cases none : src.readAt place count = []
  · rw [none, writeAt_nil]
    rw [none, List.length_nil] at length
    omega
  · rw [writeAt_size _ _ _ none]
    have nonzero := List.length_pos_iff.mpr none
    omega

end File

/-- A file is put together from chunks of another one, that start at given places. -/
def copyChunks (src : File) (width : Nat) : List Nat → Nat → Nat → File → File
  | [], _, _, file => file
  | place :: rest, size, copied, file =>
    if size = 0 then file
    else copyChunks src width rest (size - min size width) (copied + min size width)
      (file.writeAt copied (src.readAt place (min size width)))

section Chunks

variable {src : File} {width : Nat} (positive : 0 < width)

include positive

theorem copyChunks_byte {places : List Nat} {size copied : Nat} {file : File} (enough : size ≤ places.length * width)
    (behind : file.size ≤ copied) (o : Nat) :
    (copyChunks src width places size copied file).byte o =
      if o < copied then file.byte o
      else if o - copied < size then src.byte (places.getD ((o - copied) / width) 0 + (o - copied) % width) else 0#8 := by
  induction places generalizing size copied file with
  | nil =>
    have none : size = 0 := by
      rw [List.length_nil] at enough
      omega
    rw [copyChunks, none, if_neg (Nat.not_lt_zero _)]
    split
    · rfl
    · exact file.hole _ (by omega)
  | cons place rest ih =>
    rw [copyChunks]
    by_cases none : size = 0
    · rw [if_pos none, none, if_neg (Nat.not_lt_zero _)]
      split
      · rfl
      · exact file.hole _ (by omega)
    rw [List.length_cons, Nat.succ_mul] at enough
    have chunk := file.writeAt_readAt_size src place behind (show 0 < min size width by omega)
    rw [if_neg none, ih (by omega) chunk.1, file.writeAt_readAt_byte src _ _ _ behind]
    by_cases before : o < copied
    · rw [if_pos (by omega), if_pos before, if_pos before]
    · rw [if_neg before, if_neg before]
      by_cases here : o - copied < min size width
      · rw [if_pos (by omega), if_pos here, if_pos (by omega), Nat.div_eq_of_lt (by omega), Nat.mod_eq_of_lt (by omega)]
        rfl
      · rw [if_neg (by omega)]
        by_cases inside : o - copied < size
        · have full : min size width = width := by omega
          have index : (o - copied) / width = (o - copied - width) / width + 1 := by
            rw [← Nat.add_div_right _ positive, Nat.sub_add_cancel (by omega)]
          have offset : (o - copied) % width = (o - copied - width) % width := Nat.mod_eq_sub_mod (by omega)
          rw [if_pos (by omega), if_pos inside, full, index, offset, List.getD_cons_succ, Nat.sub_add_eq]
        · rw [if_neg (by omega), if_neg inside]

/-- The chunks fill the size exactly when the last one can be read. -/
theorem copyChunks_size {places : List Nat} {size copied : Nat} {file : File} (enough : size ≤ places.length * width)
    (behind : file.size ≤ copied) (some : 0 < size) :
    (copyChunks src width places size copied file).size ≤ copied + size ∧
      ((copyChunks src width places size copied file).size = copied + size ↔
        places.getD ((size - 1) / width) 0 + (size - 1) % width < src.size) := by
  induction places generalizing size copied file with
  | nil =>
    rw [List.length_nil] at enough
    omega
  | cons place rest ih =>
    rw [List.length_cons, Nat.succ_mul] at enough
    have chunk := file.writeAt_readAt_size src place behind (show 0 < min size width by omega)
    rw [copyChunks, if_neg (by omega)]
    by_cases last : size ≤ width
    · rw [Nat.min_eq_left last] at chunk ⊢
      have done : copyChunks src width rest (size - size) (copied + size) (file.writeAt copied (src.readAt place size)) =
          file.writeAt copied (src.readAt place size) := by
        rw [Nat.sub_self]
        cases rest with
        | nil => rfl
        | cons => exact if_pos rfl
      rw [done, Nat.div_eq_of_lt (by omega), Nat.mod_eq_of_lt (by omega)]
      exact chunk
    · have full : min size width = width := by omega
      rw [full] at chunk ⊢
      have index : (size - 1) / width = (size - width - 1) / width + 1 := by
        rw [← Nat.add_div_right _ positive]
        congr 1
        omega
      have offset : (size - 1) % width = (size - width - 1) % width := by
        rw [Nat.mod_eq_sub_mod (by omega)]
        congr 1
        omega
      have tail := @ih (size - width) (copied + width) (file.writeAt copied (src.readAt place width)) (by omega) chunk.1 (by omega)
      rw [index, offset, List.getD_cons_succ]
      rw [show copied + width + (size - width) = copied + size by omega] at tail
      exact tail

end Chunks

end Storage
