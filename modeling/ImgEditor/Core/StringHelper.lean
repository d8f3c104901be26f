import ImgEditor.Core.CText
import ImgEditor.Storage.Memmem
import Mathlib.Data.List.DropRight

namespace ImgEditor

open Storage CText

/-- What one fgets(3) call takes off a stream when the buffer has room for `room` characters. -/
def fgets : Nat → List Byte → List Byte × List Byte
  | 0, stream => ([], stream)
  | _ + 1, [] => ([], [])
  | room + 1, c :: stream =>
    if c = 10#8 then ([c], stream)
    else
      let (line, stream) := fgets room stream
      (c :: line, stream)

theorem fgets_length (room : Nat) (stream : List Byte) : (fgets room stream).2.length ≤ stream.length := by
  induction room generalizing stream with
  | zero => simp [fgets]
  | succ room ih =>
    cases stream with
    | nil => simp [fgets]
    | cons c stream =>
      rw [fgets]
      split
      · simp
      · have shorter := ih stream
        simp only [List.length_cons]
        omega

theorem fgets_shorter (room : Nat) (c : Byte) (stream : List Byte) :
    (fgets (room + 1) (c :: stream)).2.length < (c :: stream).length := by
  rw [fgets]
  split
  · simp
  · have shorter := fgets_length room stream
    simp only [List.length_cons]
    omega

/-- The contents of a buffer of `room + 2` bytes after each successful fgets(3) call. -/
def fgetsLines (room : Nat) : List Byte → List (List Byte)
  | [] => []
  | c :: stream => (fgets (room + 1) (c :: stream)).1 :: fgetsLines room (fgets (room + 1) (c :: stream)).2
termination_by stream => stream.length
decreasing_by exact fgets_shorter room c stream

def scanLong (s : CString) : Option (Int × CString) :=
  let sign := takeSign (s.dropWhile isSpace)
  let digits := sign.2.takeWhile (isDigit 10)
  if digits = [] then none
  else
    let value : Int := if sign.1 then -(numeral 10 digits : Int) else numeral 10 digits
    some (max (-2 ^ 63) (min value (2 ^ 63 - 1)), sign.2.dropWhile (isDigit 10))

/-- The non-empty pieces between the delimiters, as strtok_r(3) gives them. -/
def strtok (delim : CString) : CString → List CString
  | [] => []
  | c :: rest =>
    if c ∈ delim then strtok delim rest
    else
      match rest, strtok delim rest with
      | [], _ => [[c]]
      | d :: _, pieces => if d ∈ delim then [c] :: pieces else (c :: pieces.headD []) :: pieces.tail

def argvBufferSplitWithDelim (cmdlines delim : CString) (szArgv : Nat) : List CString :=
  if szArgv = 0 then [] else (strtok delim cmdlines).take (max 1 (szArgv - 1))

section FirstOf

variable {c : Byte} {front : CString} (plain : c ∉ front)
include plain

theorem takeWhile_other (rest : CString) : (front ++ c :: rest).takeWhile (· ≠ c) = front := by
  rw [List.takeWhile_append_of_pos, List.takeWhile_cons_of_neg (by simp), List.append_nil]
  intro d member
  exact decide_eq_true fun same => plain (same ▸ member)

theorem dropWhile_other (rest : CString) : (front ++ c :: rest).dropWhile (· ≠ c) = c :: rest := by
  rw [List.dropWhile_append_of_pos, List.dropWhile_cons_of_neg (by simp)]
  intro d member
  exact decide_eq_true fun same => plain (same ▸ member)

end FirstOf

def stringSkipHeadSpace (s : CString) : CString := s.dropWhile isSpace

def stringRemoveEolSpace (s : CString) : CString := s.rdropWhile isSpace

/-- The loop of `string_replace_in_buffer`: what is in front of `s`, and the string at `s`. -/
def stringReplaceLoop (bufsz : Nat) (token replacement : CString) : Nat → CString → CString → CString
  | 0, done, s => done ++ s
  | fuel + 1, done, s =>
    match memmem s token with
    | none => done ++ s
    | some i =>
      if replacement.length ≤ token.length then
        stringReplaceLoop bufsz token replacement fuel (done ++ (s.take i ++ replacement)) (s.drop (i + token.length))
      else if replacement.length - token.length + (done.length + i) + 1 ≥ bufsz then done ++ s
      else stringReplaceLoop bufsz token replacement fuel (done ++ (s.take i ++ replacement)) (s.drop (i + token.length))

/-- `string_replace_in_buffer`. Every pass takes at least one character of a token, so the length of the
string bounds the passes. -/
def stringReplaceInBuffer (buffer : CString) (bufsz : Nat) (token replacement : CString) : CString :=
  stringReplaceLoop bufsz token replacement buffer.length [] buffer

/-- `s` with every backslash that is followed by `letter` replaced, together with it, by `control`. -/
def unescapeLetter (letter control : Byte) : CString → CString
  | [] => []
  | [c] => [c]
  | c :: d :: rest =>
    if c = 92#8 ∧ d = letter then control :: unescapeLetter letter control rest
    else c :: unescapeLetter letter control (d :: rest)

theorem unescapeLetter_token (letter control : Byte) (rest : CString) :
    unescapeLetter letter control (92#8 :: letter :: rest) = control :: unescapeLetter letter control rest := by
  rw [unescapeLetter, if_pos ⟨rfl, rfl⟩]

theorem unescapeLetter_cons {letter : Byte} (control c : Byte) {rest : CString}
    (plain : ¬ [92#8, letter] <+: c :: rest) :
    unescapeLetter letter control (c :: rest) = c :: unescapeLetter letter control rest := by
  cases rest with
  | nil => rfl
  | cons d rest =>
    rw [unescapeLetter, if_neg]
    rintro ⟨rfl, rfl⟩
    exact plain ⟨rest, rfl⟩

theorem unescapeLetter_memmem {letter control : Byte} (s : CString) :
    unescapeLetter letter control s = match memmem s [92#8, letter] with
      | none => s
      | some i => s.take i ++ control :: unescapeLetter letter control (s.drop (i + 2)) := by
  induction s with
  | nil =>
    rw [memmem_nil (by simp)]
    rfl
  | cons c rest ih =>
    by_cases here : [92#8, letter] <+: c :: rest
    · rw [memmem_start here]
      obtain ⟨more, shape⟩ := here
      obtain ⟨rfl, rfl⟩ : 92#8 = c ∧ letter :: more = rest := by simpa using shape
      exact unescapeLetter_token letter control more
    · rw [memmem_cons here, unescapeLetter_cons control c here, ih]
      cases found : memmem rest [92#8, letter] with
      | none => rfl
      | some i => simp [List.take_succ_cons, List.drop_succ_cons, Nat.add_right_comm i 1 2]

theorem stringReplaceLoop_letter (bufsz : Nat) (letter control : Byte) (fuel : Nat) (done s : CString)
    (enough : s.length ≤ fuel) :
    stringReplaceLoop bufsz [92#8, letter] [control] fuel done s = done ++ unescapeLetter letter control s := by
  induction fuel generalizing done s with
  | zero =>
    obtain rfl := List.eq_nil_of_length_eq_zero (Nat.le_zero.mp enough)
    rfl
  | succ fuel ih =>
    rw [stringReplaceLoop, unescapeLetter_memmem s]
    cases found : memmem s [92#8, letter] with
    | none => rfl
    | some i =>
      have inside : i + 2 ≤ s.length := by
        obtain ⟨more, shape⟩ := (memmem_some found).1
        have length := congrArg List.length shape
        simp only [List.length_append, List.length_cons, List.length_nil, List.length_drop] at length
        omega
      simp only [List.length_cons, List.length_nil]
      rw [if_pos (by omega), ih _ _ (by simp; omega)]
      simp

theorem stringReplaceInBuffer_letter (buffer : CString) (bufsz : Nat) (letter control : Byte) :
    stringReplaceInBuffer buffer bufsz [92#8, letter] [control] = unescapeLetter letter control buffer := by
  rw [stringReplaceInBuffer, stringReplaceLoop_letter _ _ _ _ _ _ (le_refl _), List.nil_append]

theorem filter_memmem (c : Byte) (s : CString) : s.filter (· ≠ c) = match memmem s [c] with
    | none => s
    | some i => s.take i ++ (s.drop (i + 1)).filter (· ≠ c) := by
  induction s with
  | nil =>
    rw [memmem_nil (by simp)]
    rfl
  | cons d rest ih =>
    by_cases here : d = c
    · subst here
      rw [memmem_start (by simp)]
      simp
    · rw [memmem_cons (by simpa using Ne.symm here), List.filter_cons_of_pos (by simpa using here), ih]
      cases found : memmem rest [c] with
      | none => rfl
      | some i => simp [List.take_succ_cons, List.drop_succ_cons]

theorem stringReplaceLoop_remove (bufsz : Nat) (c : Byte) (fuel : Nat) (done s : CString) (enough : s.length ≤ fuel) :
    stringReplaceLoop bufsz [c] [] fuel done s = done ++ s.filter (· ≠ c) := by
  induction fuel generalizing done s with
  | zero =>
    obtain rfl := List.eq_nil_of_length_eq_zero (Nat.le_zero.mp enough)
    rfl
  | succ fuel ih =>
    rw [stringReplaceLoop, filter_memmem c s]
    cases found : memmem s [c] with
    | none => rfl
    | some i =>
      have inside : i + 1 ≤ s.length := by
        have length := (memmem_some found).1.length_le
        simp only [List.length_singleton, List.length_drop] at length
        omega
      simp only [List.length_nil, List.length_singleton]
      rw [if_pos (by omega), ih _ _ (by simp; omega)]
      simp

theorem stringReplaceInBuffer_remove (buffer : CString) (bufsz : Nat) (c : Byte) :
    stringReplaceInBuffer buffer bufsz [c] [] = buffer.filter (· ≠ c) := by
  rw [stringReplaceInBuffer, stringReplaceLoop_remove _ _ _ _ _ (le_refl _), List.nil_append]

theorem fgets_line (room : Nat) {line : List Byte} (rest : List Byte) (fits : line.length < room)
    (plain : 10#8 ∉ line) : fgets room (line ++ 10#8 :: rest) = (line ++ [10#8], rest) := by
  induction line generalizing room with
  | nil =>
    obtain ⟨room, rfl⟩ : ∃ n, room = n + 1 := ⟨room - 1, by simp at fits; omega⟩
    simp [fgets]
  | cons c line ih =>
    simp only [List.length_cons] at fits
    obtain ⟨room, rfl⟩ : ∃ n, room = n + 1 := ⟨room - 1, by omega⟩
    have other : c ≠ 10#8 := fun same => plain (same ▸ List.mem_cons_self)
    have tail := ih room (by omega) fun member => plain (List.mem_cons_of_mem _ member)
    rw [List.cons_append, fgets, if_neg other, tail]
    rfl

theorem fgetsLines_lines (room : Nat) (lines : List (List Byte))
    (fits : ∀ line ∈ lines, line.length ≤ room ∧ 10#8 ∉ line) :
    fgetsLines room (lines.flatMap (· ++ [10#8])) = lines.map (· ++ [10#8]) := by
  induction lines with
  | nil => simp [fgetsLines]
  | cons line lines ih =>
    obtain ⟨short, plain⟩ := fits line List.mem_cons_self
    have tail := ih fun other member => fits other (List.mem_cons_of_mem _ member)
    have first := fgets_line (room + 1) (lines.flatMap (· ++ [10#8])) (Nat.lt_succ_of_le short) plain
    have shape : (line :: lines).flatMap (· ++ [10#8]) = line ++ 10#8 :: lines.flatMap (· ++ [10#8]) := by simp
    obtain ⟨c, stream, nonempty⟩ : ∃ c stream, line ++ 10#8 :: lines.flatMap (· ++ [10#8]) = c :: stream := by
      cases line <;> exact ⟨_, _, rfl⟩
    rw [shape, nonempty, fgetsLines, ← nonempty, first, tail]
    rfl

def textLines : List Byte → List (List Byte)
  | [] => []
  | c :: rest =>
    if c = 10#8 then [] :: textLines rest
    else
      match textLines rest with
      | [] => [[c]]
      | line :: lines => (c :: line) :: lines

theorem textLines_newline (rest : List Byte) : textLines (10#8 :: rest) = [] :: textLines rest := by
  rw [textLines, if_pos rfl]

theorem textLines_cons {c : Byte} (other : c ≠ 10#8) (rest : List Byte) :
    textLines (c :: rest) = (c :: (textLines rest).headD []) :: (textLines rest).tail := by
  rw [textLines, if_neg other]
  cases textLines rest <;> rfl

theorem textLines_line {line : List Byte} (plain : 10#8 ∉ line) (rest : List Byte) :
    textLines (line ++ 10#8 :: rest) = line :: textLines rest := by
  induction line with
  | nil => exact textLines_newline rest
  | cons c line ih =>
    have other : c ≠ 10#8 := fun same => plain (same ▸ List.mem_cons_self)
    rw [List.cons_append, textLines_cons other, ih fun member => plain (List.mem_cons_of_mem _ member)]
    rfl

theorem textLines_last {line : List Byte} (plain : 10#8 ∉ line) (nonempty : line ≠ []) :
    textLines line = [line] := by
  induction line with
  | nil => exact absurd rfl nonempty
  | cons c line ih =>
    have other : c ≠ 10#8 := fun same => plain (same ▸ List.mem_cons_self)
    rw [textLines_cons other]
    by_cases empty : line = []
    · subst empty
      rfl
    · rw [ih (fun member => plain (List.mem_cons_of_mem _ member)) empty]
      rfl

theorem textLines_length (text : List Byte) : (textLines text).length =
    text.count 10#8 + if text.getLast? = none ∨ text.getLast? = some 10#8 then 0 else 1 := by
  induction text with
  | nil => rfl
  | cons c rest ih =>
    by_cases newline : c = 10#8
    · subst newline
      rw [textLines_newline, List.length_cons, ih, List.count_cons_self]
      cases rest with
      | nil => rfl
      | cons d rest => simp only [List.getLast?_cons_cons]; omega
    · rw [textLines_cons newline, List.length_cons, List.length_tail, ih,
        List.count_cons_of_ne newline]
      cases rest with
      | nil => simp [newline]
      | cons d rest =>
        simp only [List.getLast?_cons_cons]
        have some : (textLines (d :: rest)).length ≠ 0 := by
          intro none
          have empty := List.eq_nil_of_length_eq_zero none
          rw [textLines] at empty
          split at empty
          · cases empty
          · split at empty <;> cases empty
        omega

theorem textLines_total (text : List Byte) :
    text.length = ((textLines text).map List.length).sum + text.count 10#8 := by
  induction text with
  | nil => rfl
  | cons c rest ih =>
    by_cases newline : c = 10#8
    · subst newline
      rw [textLines_newline, List.count_cons_self]
      simp only [List.length_cons, List.map_cons, List.length_nil, List.sum_cons]
      omega
    · rw [textLines_cons newline, List.count_cons_of_ne newline]
      cases lines : textLines rest with
      | nil =>
        rw [lines] at ih
        simp at ih ⊢
        omega
      | cons line more =>
        rw [lines] at ih
        simp at ih ⊢
        omega

theorem textLines_head {text line : List Byte} {lines : List (List Byte)} (same : textLines text = line :: lines) :
    text.takeWhile (· ≠ 10#8) = line := by
  induction text generalizing line lines with
  | nil => cases same
  | cons c rest ih =>
    by_cases newline : c = 10#8
    · subst newline
      rw [textLines_newline] at same
      obtain rfl := (List.cons.inj same).1
      rw [List.takeWhile_cons_of_neg (by decide)]
    · rw [textLines_cons newline] at same
      obtain rfl := (List.cons.inj same).1
      rw [List.takeWhile_cons_of_pos (by simpa using newline)]
      cases more : textLines rest with
      | nil =>
        have empty := textLines_total rest
        have lengths := textLines_length rest
        rw [more] at empty lengths
        simp only [List.map_nil, List.sum_nil, List.length_nil] at empty lengths
        have none : rest = [] := List.eq_nil_of_length_eq_zero (by omega)
        rw [none]
        rfl
      | cons first others => rw [ih more]; rfl

end ImgEditor
