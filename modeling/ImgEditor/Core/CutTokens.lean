import ImgEditor.Core.StringHelper

namespace ImgEditor

open Storage CText

/-! The pieces of a text that ends somewhere in them. -/

def delimited (d : Byte) (pieces : List CString) : CString := pieces.flatMap fun piece => piece ++ [d]

/-- The pieces that begin in the first `room` bytes, each with a delimiter behind it. -/
def cutPieces : Nat → List CString → List CString
  | _, [] => []
  | room, piece :: rest =>
    if room ≤ piece.length then (if room = 0 then [] else [piece.take room])
    else piece :: cutPieces (room - (piece.length + 1)) rest

def Plain (d : Byte) (piece : CString) : Prop := piece ≠ [] ∧ d ∉ piece

section Tokens

variable {d : Byte}

theorem strtok_delim (rest : CString) : strtok [d] (d :: rest) = strtok [d] rest := by
  rw [strtok.eq_def]
  exact if_pos List.mem_cons_self

theorem strtok_append {token rest : CString} (plain : Plain d token) (stop : ∀ c ∈ rest.head?, c = d) :
    strtok [d] (token ++ rest) = token :: strtok [d] rest := by
  obtain ⟨nonempty, clear⟩ := plain
  induction token with
  | nil => exact absurd rfl nonempty
  | cons c token ih =>
    have here : c ∉ [d] := by
      intro same
      exact clear (by rw [List.mem_singleton.mp same]; exact List.mem_cons_self)
    have later : d ∉ token := fun member => clear (List.mem_cons_of_mem c member)
    rw [List.cons_append, strtok.eq_def]
    refine (if_neg here).trans ?_
    cases token with
    | nil =>
      cases rest with
      | nil => rfl
      | cons e rest =>
        have delim : e = d := stop e rfl
        simp [delim]
    | cons e token =>
      have next : e ∉ [d] := by
        intro same
        exact later (by rw [List.mem_singleton.mp same]; exact List.mem_cons_self)
      rw [ih (List.cons_ne_nil e token) later]
      simp only [List.cons_append, if_neg next, List.headD_cons, List.tail_cons]

theorem strtok_token {token : CString} (plain : Plain d token) : strtok [d] token = [token] := by
  have alone : strtok [d] (token ++ []) = _ := strtok_append plain nofun
  rw [List.append_nil, strtok] at alone
  exact alone

theorem Plain.take {piece : CString} (plain : Plain d piece) {room : Nat} (positive : room ≠ 0) : Plain d (piece.take room) := by
  constructor
  · intro empty
    rcases List.take_eq_nil_iff.mp empty with zero | none
    · exact positive zero
    · exact plain.1 none
  · exact fun member => plain.2 (List.mem_of_mem_take member)

theorem strtok_cutPieces {pieces : List CString} (plain : ∀ piece ∈ pieces, Plain d piece) (room : Nat) :
    strtok [d] ((delimited d pieces).take room) = cutPieces room pieces := by
  induction pieces generalizing room with
  | nil =>
    rw [delimited, List.flatMap_nil, List.take_nil]
    rfl
  | cons piece rest ih =>
    have first := plain piece List.mem_cons_self
    rw [delimited, List.flatMap_cons, List.append_assoc, ← delimited, cutPieces]
    split
    · rw [List.take_append_of_le_length ‹_›]
      split
      · rename_i zero
        rw [zero, List.take_zero]
        rfl
      · exact strtok_token (first.take ‹_›)
    · rename_i long
      have inside : room = piece.length + (room - (piece.length + 1) + 1) := by omega
      rw [inside, List.take_length_add_append, List.singleton_append, List.take_succ_cons,
        strtok_append first (by simp), strtok_delim,
        ih (fun piece member => plain piece (List.mem_cons_of_mem _ member))]
      congr 2
      omega

theorem cutPieces_append (d : Byte) (room : Nat) (front behind : List CString) :
    cutPieces room (front ++ behind) =
      if room < (delimited d front).length then cutPieces room front
      else front ++ cutPieces (room - (delimited d front).length) behind := by
  induction front generalizing room with
  | nil => simp [delimited]
  | cons piece front ih =>
    have size : (delimited d (piece :: front)).length = piece.length + 1 + (delimited d front).length := by
      simp [delimited]
      omega
    rw [List.cons_append, cutPieces, cutPieces, size, ih]
    by_cases short : room ≤ piece.length
    · have inside : room < piece.length + 1 + (delimited d front).length := by omega
      rw [if_pos short, if_pos short, if_pos inside]
    · rw [if_neg short, if_neg short]
      by_cases inside : room < piece.length + 1 + (delimited d front).length
      · have further : room - (piece.length + 1) < (delimited d front).length := by omega
        rw [if_pos inside, if_pos further]
      · have further : ¬ room - (piece.length + 1) < (delimited d front).length := by omega
        have same : room - (piece.length + 1) - (delimited d front).length = room - (piece.length + 1 + (delimited d front).length) := by
          omega
        rw [if_neg inside, if_neg further, same, List.cons_append]

theorem cutPieces_whole (d : Byte) {room : Nat} {pieces : List CString} (nonempty : ∀ piece ∈ pieces, piece ≠ [])
    (long : (delimited d pieces).length ≤ room + 1) : cutPieces room pieces = pieces := by
  induction pieces generalizing room with
  | nil => rfl
  | cons piece rest ih =>
    have positive := List.length_pos_iff.mpr (nonempty piece List.mem_cons_self)
    have size : (delimited d (piece :: rest)).length = piece.length + 1 + (delimited d rest).length := by
      simp [delimited]
      omega
    rw [cutPieces]
    by_cases short : room ≤ piece.length
    · have last : rest = [] := by
        cases rest with
        | nil => rfl
        | cons next rest =>
          simp [delimited] at size long
          omega
      rw [if_pos short, if_neg (by omega), last, List.take_of_length_le (by omega)]
    · rw [if_neg short, ih (fun piece member => nonempty piece (List.mem_cons_of_mem _ member)) (by omega)]

theorem mem_cutPieces {room : Nat} {pieces : List CString} {token : CString} (member : token ∈ cutPieces room pieces) :
    ∃ piece ∈ pieces, ∃ count, token = piece.take count := by
  induction pieces generalizing room with
  | nil => exact absurd member List.not_mem_nil
  | cons piece rest ih =>
    rw [cutPieces] at member
    split at member
    · split at member
      · exact absurd member List.not_mem_nil
      · exact ⟨piece, List.mem_cons_self, room, List.mem_singleton.mp member⟩
    · rcases List.mem_cons.mp member with rfl | later
      · exact ⟨token, List.mem_cons_self, token.length, List.take_length.symm⟩
      · obtain ⟨found, inside, count, shape⟩ := ih later
        exact ⟨found, List.mem_cons_of_mem _ inside, count, shape⟩

theorem cutPieces_length (room : Nat) (pieces : List CString) : (cutPieces room pieces).length ≤ pieces.length := by
  induction pieces generalizing room with
  | nil => exact Nat.le_refl 0
  | cons piece rest ih =>
    rw [cutPieces]
    split
    · split <;> simp
    · exact Nat.succ_le_succ (ih _)

/-- Where every piece has `width` bytes, there are not many in the room. -/
theorem cutPieces_length_le {pieces : List CString} {width : Nat} (wide : ∀ piece ∈ pieces, width ≤ piece.length) (room : Nat) :
    (width + 1) * (cutPieces room pieces).length ≤ room + (width + 1) := by
  induction pieces generalizing room with
  | nil => simp [cutPieces]
  | cons piece rest ih =>
    have first := wide piece List.mem_cons_self
    have behind := ih (fun piece member => wide piece (List.mem_cons_of_mem _ member)) (room - (piece.length + 1))
    rw [cutPieces]
    split
    · split <;> simp
    · rw [List.length_cons, Nat.mul_add]
      omega

end Tokens

end ImgEditor
