import ImgEditor.Core.CInt
import ImgEditor.Core.CText
import ImgEditor.Storage.Overwrite

namespace ImgEditor

open Storage CText

/-- What the format and the arguments of a call come to: a text that an `int` can count, or an encoding error. -/
inductive Formatted where
  | text (piece : List Byte) (short : piece.length < 2 ^ 31)
  | error (ret : Int) (negative : -2 ^ 31 ≤ ret ∧ ret < 0) (left : List Byte)

/-- vsnprintf(3) with `sz` bytes from `s` on, as C99 has it; after an error these bytes are unspecified. -/
def vsnprintf (buffer : List Byte) (s sz : Nat) : Formatted → Option (Int × List Byte)
  | .text piece _ =>
    if sz = 0 then some (piece.length, buffer)
    else (overwrite buffer s (piece.take (sz - 1) ++ [0#8])).map ((piece.length : Int), ·)
  | .error ret _ left => (overwrite buffer s (left.take sz)).map (ret, ·)

structure Printing where
  buffer : List Byte
  s : Nat
  sz : Nat

def snprintfContinue (p : Printing) (formatted : Formatted) : Option (Nat × Printing) := do
  let freesz := p.sz
  let (ret, buffer) ← vsnprintf p.buffer p.s freesz formatted
  let n := toSizeT ret
  let written := if freesz ≤ n then toSizeT (freesz - 1) else n
  some (n, ⟨buffer, p.s + written, toSizeT (p.sz - written)⟩)

abbrev Piece := { piece : List Byte // piece.length < 2 ^ 31 }

def Piece.formatted (piece : Piece) : Formatted := .text piece.1 piece.2

def snprintfCalls (p : Printing) (calls : List Formatted) : Option Printing :=
  calls.foldlM (fun p formatted => (snprintfContinue p formatted).map Prod.snd) p

/-- The cursor and the remaining size meet at the end of a buffer of `size` bytes, with room for one byte at least. -/
structure Printing.Inside (size : Nat) (p : Printing) : Prop where
  length : p.buffer.length = size
  ends : p.s + p.sz = size
  room : 1 ≤ p.sz

/-- The cursor stands behind what fits of the text. -/
structure Printing.Holds (size : Nat) (text : List Byte) (p : Printing) : Prop where
  cursor : p.s = (text.take (size - 1)).length
  front : text.take (size - 1) <+: p.buffer

theorem Printing.inside_start {buffer : List Byte} (room : 1 ≤ buffer.length) :
    Printing.Inside buffer.length ⟨buffer, 0, buffer.length⟩ := ⟨rfl, Nat.zero_add _, room⟩

theorem Printing.holds_start (buffer : List Byte) : Printing.Holds buffer.length [] ⟨buffer, 0, buffer.length⟩ := by
  have nothing : ([] : List Byte).take (buffer.length - 1) = [] := List.take_nil
  exact ⟨by rw [nothing]; rfl, by rw [nothing]; exact List.nil_prefix⟩

section Calls

variable {size : Nat} {p p' : Printing} {text piece : List Byte}

theorem vsnprintf_inside (inside : p.Inside size) (formatted : Formatted) :
    ∃ ret buffer, vsnprintf p.buffer p.s p.sz formatted = some (ret, buffer) ∧ buffer.length = size := by
  have ends := inside.ends
  have room := inside.room
  cases formatted with
  | text piece short =>
    have fits : p.s + (piece.take (p.sz - 1) ++ [0#8]).length ≤ p.buffer.length := by
      rw [inside.length, List.length_append, List.length_take, List.length_singleton]
      omega
    exact ⟨_, _, by rw [vsnprintf, if_neg (by omega), overwrite_inside fits]; rfl,
      (setField_length fits).trans inside.length⟩
  | error ret negative left =>
    have fits : p.s + (left.take p.sz).length ≤ p.buffer.length := by
      rw [inside.length, List.length_take]
      omega
    exact ⟨_, _, by rw [vsnprintf, overwrite_inside fits]; rfl, (setField_length fits).trans inside.length⟩

/-- Whatever the call returns, the cursor moves by less than the remaining size. -/
theorem snprintfContinue_steps (inside : p.Inside size) (small : size < 2 ^ 64) {formatted : Formatted} {ret : Int}
    {buffer : List Byte} (printed : vsnprintf p.buffer p.s p.sz formatted = some (ret, buffer)) :
    snprintfContinue p formatted = some (toSizeT ret, ⟨buffer, p.s + min (p.sz - 1) (toSizeT ret),
      p.sz - min (p.sz - 1) (toSizeT ret)⟩) := by
  have ends := inside.ends
  have room := inside.room
  have least : (if p.sz ≤ toSizeT ret then toSizeT (p.sz - 1) else toSizeT ret) = min (p.sz - 1) (toSizeT ret) := by
    by_cases limited : p.sz ≤ toSizeT ret
    · have last : toSizeT (p.sz - 1) = p.sz - 1 := by
        rw [← Int.natCast_pred_of_pos room]
        exact toSizeT_natCast (by omega)
      rw [if_pos limited, last]
      omega
    · rw [if_neg limited]
      omega
  have left : toSizeT (p.sz - (min (p.sz - 1) (toSizeT ret) : Nat)) = p.sz - min (p.sz - 1) (toSizeT ret) := by
    rw [← Int.ofNat_sub (by omega)]
    exact toSizeT_natCast (by omega)
  simp only [snprintfContinue, printed, Option.bind_eq_bind, Option.bind_some, least, left]

theorem snprintfContinue_inside (inside : p.Inside size) (small : size < 2 ^ 64) (formatted : Formatted) :
    ∃ n p', snprintfContinue p formatted = some (n, p') ∧ p'.Inside size := by
  have ends := inside.ends
  have room := inside.room
  obtain ⟨ret, buffer, printed, length⟩ := vsnprintf_inside inside formatted
  exact ⟨_, _, snprintfContinue_steps inside small printed, length, by dsimp only; omega, by dsimp only; omega⟩

theorem snprintfContinue_text (inside : p.Inside size) (small : size < 2 ^ 64) (holds : p.Holds size text)
    (short : piece.length < 2 ^ 31) :
    ∃ p', snprintfContinue p (.text piece short) = some (piece.length, p') ∧ p'.Inside size ∧
      p'.Holds size (text ++ piece) ∧ (text ++ piece).take (size - 1) ++ [0#8] <+: p'.buffer := by
  have ends := inside.ends
  have room := inside.room
  have cursor := holds.cursor
  have fits : p.s + (piece.take (p.sz - 1) ++ [0#8]).length ≤ p.buffer.length := by
    rw [inside.length, List.length_append, List.length_take, List.length_singleton]
    omega
  have counted : toSizeT (piece.length : Int) = piece.length := toSizeT_natCast (by omega)
  have printed : vsnprintf p.buffer p.s p.sz (.text piece short) =
      some ((piece.length : Int), setField p.buffer p.s (piece.take (p.sz - 1) ++ [0#8])) := by
    rw [vsnprintf, if_neg (by omega), overwrite_inside fits]
    rfl
  -- what is left behind the text is the remaining size less the terminator
  have whole : (text ++ piece).take (size - 1) = text.take (size - 1) ++ piece.take (p.sz - 1) := by
    rw [List.length_take] at cursor
    rw [List.take_append, show size - 1 - text.length = p.sz - 1 by omega]
  have front := setField_extends holds.front (piece.take (p.sz - 1) ++ [0#8])
  rw [← cursor, ← List.append_assoc, ← whole] at front
  have steps := snprintfContinue_steps inside small printed
  rw [counted] at steps
  refine ⟨_, steps, ⟨?_, ?_, ?_⟩, ⟨?_, ?_⟩, front⟩
  · exact (setField_length fits).trans inside.length
  · dsimp only
    omega
  · dsimp only
    omega
  · rw [whole, List.length_append, ← cursor, List.length_take]
  · exact (List.prefix_append _ _).trans front

theorem snprintfCalls_inside (small : size < 2 ^ 64) (calls : List Formatted) (inside : p.Inside size) :
    ∃ p', snprintfCalls p calls = some p' ∧ p'.Inside size := by
  induction calls generalizing p with
  | nil => exact ⟨p, rfl, inside⟩
  | cons formatted calls ih =>
    obtain ⟨n, next, called, inside'⟩ := snprintfContinue_inside inside small formatted
    obtain ⟨last, run, kept⟩ := ih inside'
    rw [snprintfCalls, List.foldlM_cons, called]
    exact ⟨last, run, kept⟩

/-- Calls that all format a piece print behind the text, and the last of them leaves the terminator. -/
theorem snprintfCalls_texts (small : size < 2 ^ 64) (pieces : List Piece) (inside : p.Inside size)
    (holds : p.Holds size text) :
    ∃ p', snprintfCalls p (pieces.map Piece.formatted) = some p' ∧ p'.Inside size ∧
      p'.Holds size (text ++ pieces.flatMap Subtype.val) ∧
      ((pieces ≠ [] ∨ text.take (size - 1) ++ [0#8] <+: p.buffer) →
        (text ++ pieces.flatMap Subtype.val).take (size - 1) ++ [0#8] <+: p'.buffer) := by
  induction pieces generalizing p text with
  | nil =>
    rw [List.flatMap_nil, List.append_nil]
    exact ⟨p, rfl, inside, holds, fun ended => ended.resolve_left (fun some_ => some_ rfl)⟩
  | cons piece pieces ih =>
    obtain ⟨next, called, inside', holds', front⟩ := snprintfContinue_text inside small holds piece.2
    obtain ⟨last, run, kept, text', ended⟩ := ih inside' holds'
    rw [List.append_assoc, ← List.flatMap_cons] at text' ended
    rw [List.map_cons, snprintfCalls, List.foldlM_cons, Piece.formatted, called]
    exact ⟨last, run, kept, text', fun _ => ended (.inr front)⟩

end Calls

/-- The cursor and the remaining size keep to the buffer over any calls, and what the calls format stands in it. -/
theorem snprintfCalls_right {buffer : List Byte} (room : 1 ≤ buffer.length) (small : buffer.length < 2 ^ 64)
    (calls : List Formatted) :
    ∃ p, snprintfCalls ⟨buffer, 0, buffer.length⟩ calls = some p ∧
      p.buffer.length = buffer.length ∧ p.s + p.sz = buffer.length ∧ 1 ≤ p.sz ∧
      ∀ pieces : List Piece, calls = pieces.map Piece.formatted →
        (pieces.flatMap Subtype.val).take (buffer.length - 1) <+: p.buffer ∧
        ((pieces ≠ [] ∨ buffer.head? = some 0#8) →
          (pieces.flatMap Subtype.val).take (buffer.length - 1) ++ [0#8] <+: p.buffer) := by
  have inside := Printing.inside_start room
  obtain ⟨p, run, kept⟩ := snprintfCalls_inside small calls inside
  refine ⟨p, run, kept.length, kept.ends, kept.room, fun pieces formatted => ?_⟩
  obtain ⟨p', run', _, text, ended⟩ := snprintfCalls_texts small pieces inside (Printing.holds_start buffer)
  rw [← formatted, run] at run'
  rw [Option.some.inj run']
  refine ⟨text.front, fun start => ended (start.imp_right fun zero => ?_)⟩
  cases buffer with
  | nil => cases zero
  | cons c rest =>
    rw [List.take_nil, Option.some.inj zero]
    exact ⟨rest, rfl⟩

theorem snprintfCalls_right_short :
    ∃ p, snprintfCalls ⟨[1, 2, 3, 4], 0, 4⟩
        [.text [97, 98] (by decide), .error (-1) (by decide) [7, 7, 7], .text [99] (by decide)] = some p ∧
      p.s + p.sz = 4 ∧ 1 ≤ p.sz ∧
      ∃ p', snprintfCalls ⟨[1, 2, 3, 4], 0, 4⟩ [.text [97, 98] (by decide), .text [99, 100] (by decide)] = some p' ∧
        [97, 98, 99, 0] <+: p'.buffer := by
  obtain ⟨p, run, _, ends, room, _⟩ := @snprintfCalls_right [1, 2, 3, 4] (by decide) (by decide)
    [.text [97, 98] (by decide), .error (-1) (by decide) [7, 7, 7], .text [99] (by decide)]
  obtain ⟨p', run', _, _, _, holds⟩ := @snprintfCalls_right [1, 2, 3, 4] (by decide) (by decide)
    [.text [97, 98] (by decide), .text [99, 100] (by decide)]
  exact ⟨p, run, ends, room, p', run', (holds [⟨[97, 98], by decide⟩, ⟨[99, 100], by decide⟩] rfl).2 (.inl (by decide))⟩

end ImgEditor
