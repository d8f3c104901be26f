import ImgEditor.UBoot.UenvImage

namespace ImgEditor

open Storage CText

theorem uenvUnescape_return (rest : CString) : uenvUnescape (92#8 :: 114#8 :: rest) = 13#8 :: uenvUnescape rest := by
  rw [uenvUnescape, unescapeLetter_token, unescapeLetter_cons]
  · rfl
  · rintro ⟨more, shape⟩
    exact absurd (List.cons.inj shape).1 (by decide)

theorem uenvUnescape_newline (rest : CString) : uenvUnescape (92#8 :: 110#8 :: rest) = 10#8 :: uenvUnescape rest := by
  have first : ¬ [92#8, 114#8] <+: 92#8 :: 110#8 :: rest := by
    rintro ⟨more, shape⟩
    exact absurd (List.cons.inj (List.cons.inj shape).2).1 (by decide)
  have second : ¬ [92#8, 114#8] <+: 110#8 :: rest := by
    rintro ⟨more, shape⟩
    exact absurd (List.cons.inj shape).1 (by decide)
  rw [uenvUnescape, unescapeLetter_cons _ _ first, unescapeLetter_cons _ _ second, unescapeLetter_token]
  rfl

def PlainHead (c : Byte) (rest : CString) : Prop := ¬ [92#8, 114#8] <+: c :: rest ∧ ¬ [92#8, 110#8] <+: c :: rest

theorem unescapeLetter_head (letter control : Byte) (d : Byte) (rest : CString) :
    (unescapeLetter letter control (d :: rest)).head? = some control ∨
      (unescapeLetter letter control (d :: rest)).head? = some d := by
  by_cases token : [92#8, letter] <+: d :: rest
  · left
    obtain ⟨more, shape⟩ := token
    rw [← shape]
    exact congrArg List.head? (unescapeLetter_token letter control more)
  · right
    rw [unescapeLetter_cons _ _ token]
    rfl

theorem uenvUnescape_plain {c : Byte} {rest : CString} (plain : PlainHead c rest) :
    uenvUnescape (c :: rest) = c :: uenvUnescape rest := by
  rw [uenvUnescape, unescapeLetter_cons _ _ plain.1, unescapeLetter_cons]
  · rfl
  rintro ⟨more, shape⟩
  obtain ⟨rfl, tail⟩ := List.cons.inj shape
  cases rest with
  | nil => cases tail
  | cons d rest =>
    rcases unescapeLetter_head 114#8 13#8 d rest with head | head
    · rw [← tail] at head
      exact absurd (Option.some.inj head) (by decide)
    · rw [← tail] at head
      obtain rfl := Option.some.inj head
      exact plain.2 ⟨rest, rfl⟩

/-- Induction on a line, one escape or one other character at a time. -/
theorem escape_induction {motive : CString → Prop} (nil : motive [])
    (carriage : ∀ rest, motive rest → motive (92#8 :: 114#8 :: rest))
    (newline : ∀ rest, motive rest → motive (92#8 :: 110#8 :: rest))
    (plain : ∀ c rest, PlainHead c rest → motive rest → motive (c :: rest)) (line : CString) : motive line := by
  induction length : line.length using Nat.strong_induction_on generalizing line with
  | _ length ih =>
    cases line with
    | nil => exact nil
    | cons c rest =>
      simp only [List.length_cons] at length
      by_cases first : [92#8, 114#8] <+: c :: rest
      · obtain ⟨tail, rfl, rfl⟩ : ∃ tail, 92#8 = c ∧ 114#8 :: tail = rest := by
          obtain ⟨tail, shape⟩ := first
          exact ⟨tail, by simpa using shape⟩
        exact carriage tail (ih tail.length (by simp only [List.length_cons] at length; omega) tail rfl)
      by_cases second : [92#8, 110#8] <+: c :: rest
      · obtain ⟨tail, rfl, rfl⟩ : ∃ tail, 92#8 = c ∧ 110#8 :: tail = rest := by
          obtain ⟨tail, shape⟩ := second
          exact ⟨tail, by simpa using shape⟩
        exact newline tail (ih tail.length (by simp only [List.length_cons] at length; omega) tail rfl)
      exact plain c rest ⟨first, second⟩ (ih rest.length (by omega) rest rfl)

def uenvEmit (c : Byte) : List Byte := if c = 13#8 then [92#8, 114#8] else if c = 10#8 then [92#8, 110#8, 10#8] else [c]

def uenvShown (line : CString) : List Byte := (uenvUnescape line).flatMap uenvEmit

theorem uenvEmit_count (c : Byte) : (uenvEmit c).count 10#8 = if c = 10#8 then 1 else 0 := by
  unfold uenvEmit
  split
  · rename_i same
    subst same
    decide
  · split
    · decide
    · rename_i other
      simp [other]

theorem uenvEmit_flatMap_count (s : List Byte) : (s.flatMap uenvEmit).count 10#8 = s.count 10#8 := by
  induction s with
  | nil => rfl
  | cons c s ih =>
    rw [List.flatMap_cons, List.count_append, ih, uenvEmit_count, List.count_cons]
    simp only [beq_iff_eq]
    omega

theorem uenvShown_length {line : CString} (plain : 10#8 ∉ line) :
    (uenvShown line).length = line.length + line.count 13#8 + (uenvUnescape line).count 10#8 := by
  unfold uenvShown
  induction line using escape_induction with
  | nil => rfl
  | carriage rest ih =>
    have tail := ih fun member => plain (by simp [member])
    rw [uenvUnescape_return]
    simp only [List.flatMap_cons, List.length_append, tail, List.length_cons]
    simp [uenvEmit]
    omega
  | newline rest ih =>
    have tail := ih fun member => plain (by simp [member])
    rw [uenvUnescape_newline]
    simp only [List.flatMap_cons, List.length_append, tail, List.length_cons]
    simp [uenvEmit]
    omega
  | plain c rest head ih =>
    have tail := ih fun member => plain (by simp [member])
    have other : c ≠ 10#8 := fun same => plain (by simp [same])
    rw [uenvUnescape_plain head]
    simp only [List.flatMap_cons, List.length_append, tail, List.length_cons, List.count_cons]
    by_cases carriage : c = 13#8
    · simp [uenvEmit, carriage]
      omega
    · simp [uenvEmit, carriage, other]
      omega

/-- But for the newlines behind the escapes, a line without carriage returns is shown as it is. -/
theorem uenvShown_filter {line : CString} (plain : 10#8 ∉ line) (returns : 13#8 ∉ line) :
    (uenvShown line).filter (· ≠ 10#8) = line := by
  unfold uenvShown
  induction line using escape_induction with
  | nil => rfl
  | carriage rest ih =>
    have tail := ih (fun member => plain (by simp [member])) (fun member => returns (by simp [member]))
    rw [uenvUnescape_return, List.flatMap_cons, List.filter_append, tail]
    rfl
  | newline rest ih =>
    have tail := ih (fun member => plain (by simp [member])) (fun member => returns (by simp [member]))
    rw [uenvUnescape_newline, List.flatMap_cons, List.filter_append, tail]
    rfl
  | plain c rest head ih =>
    have tail := ih (fun member => plain (by simp [member])) (fun member => returns (by simp [member]))
    have other : c ≠ 10#8 := fun same => plain (by simp [same])
    have carriage : c ≠ 13#8 := fun same => returns (by simp [same])
    rw [uenvUnescape_plain head, List.flatMap_cons, List.filter_append, tail]
    simp [uenvEmit, other, carriage]

theorem uenvUnescape_nul {line : CString} (plain : 0#8 ∉ line) : 0#8 ∉ uenvUnescape line := by
  induction line using escape_induction with
  | nil => exact List.not_mem_nil
  | carriage rest ih =>
    rw [uenvUnescape_return]
    have tail := ih fun member => plain (by simp [member])
    simp [tail]
  | newline rest ih =>
    rw [uenvUnescape_newline]
    have tail := ih fun member => plain (by simp [member])
    simp [tail]
  | plain c rest head ih =>
    rw [uenvUnescape_plain head]
    have tail := ih fun member => plain (by simp [member])
    have other : 0#8 ≠ c := fun same => plain (by simp [same])
    simp [tail, other]

theorem uenvUnescape_head (line : CString) : (uenvUnescape line).head? = some 1#8 ↔ line.head? = some 1#8 := by
  induction line using escape_induction with
  | nil => rfl
  | carriage rest => simp [uenvUnescape_return]
  | newline rest => simp [uenvUnescape_newline]
  | plain c rest head => simp [uenvUnescape_plain head]

theorem uenvShown_tail (line : CString) : (uenvShown line).takeWhile (· ≠ 10#8) ≠ 1#8 :: line := by
  unfold uenvShown
  induction line using escape_induction with
  | nil => simp [uenvUnescape, unescapeLetter]
  | carriage rest =>
    rw [uenvUnescape_return]
    simp [uenvEmit]
  | newline rest =>
    rw [uenvUnescape_newline]
    simp [uenvEmit]
  | plain c rest head ih =>
    rw [uenvUnescape_plain head, List.flatMap_cons]
    by_cases one : c = 1#8
    · subst one
      have emitted : uenvEmit 1#8 = [1#8] := by decide
      rw [emitted, List.singleton_append, List.takeWhile_cons_of_pos (by decide)]
      intro same
      exact ih (List.cons.inj same).2
    · intro same
      unfold uenvEmit at same
      split at same
      · simp at same
      · split at same
        · simp at same
        · rename_i other
          rw [List.singleton_append, List.takeWhile_cons_of_pos (by simpa using other)] at same
          exact one (List.cons.inj same).1

/-- What is printed for stored lines; the newline of the last one is missing when its zero is the last byte
of the environment. -/
def uenvPrinted (tight : Bool) : List (List Byte) → List Byte
  | [] => []
  | [stored] => stored.flatMap uenvEmit ++ if tight then [] else [10#8]
  | stored :: rest => stored.flatMap uenvEmit ++ 10#8 :: uenvPrinted tight rest

theorem uenvListFrom_char {buf : Nat → Byte} {envSize i : Nat} (inside : i < envSize - 1) (nonzero : buf i ≠ 0#8) :
    uenvListFrom buf envSize i = uenvEmit (buf i) ++ uenvListFrom buf envSize (i + 1) := by
  rw [uenvListFrom, if_pos inside, if_neg nonzero]
  unfold uenvEmit
  split
  · rfl
  · split <;> rfl

theorem uenvListFrom_prefix {buf : Nat → Byte} {envSize i : Nat} {stored : List Byte} (nul : 0#8 ∉ stored)
    (same : ∀ k, k < stored.length → buf (i + k) = stored.getD k 0) (inside : i + stored.length ≤ envSize - 1) :
    uenvListFrom buf envSize i = stored.flatMap uenvEmit ++ uenvListFrom buf envSize (i + stored.length) := by
  induction stored generalizing i with
  | nil => rfl
  | cons c stored ih =>
    simp only [List.length_cons] at same inside
    have first : buf i = c := same 0 (by omega)
    have nonzero : buf i ≠ 0#8 := fun zero => nul (by rw [← zero, first]; exact List.mem_cons_self)
    have tail := ih (i := i + 1) (fun member => nul (List.mem_cons_of_mem _ member)) (by
      intro k small
      have next := same (k + 1) (by omega)
      rwa [show i + (k + 1) = i + 1 + k by omega] at next) (by omega)
    rw [uenvListFrom_char (by omega) nonzero, first, tail, List.flatMap_cons, List.append_assoc, List.length_cons,
      show i + 1 + stored.length = i + (stored.length + 1) by omega]

def uenvStored (lines : List (List Byte)) : List Byte := lines.flatMap (· ++ [0#8])

theorem uenvStored_cons (first : List Byte) (rest : List (List Byte)) :
    uenvStored (first :: rest) = first ++ 0#8 :: uenvStored rest := by
  simp [uenvStored]

theorem uenvStored_nil : uenvStored [] = [] := rfl

theorem uenvListFrom_stored (buf : Nat → Byte) (envSize i : Nat) {first : List Byte} {rest : List (List Byte)}
    (nul : ∀ stored ∈ first :: rest, 0#8 ∉ stored) (nonempty : ∀ stored ∈ rest, stored ≠ [])
    (same : ∀ k, i + k < envSize → buf (i + k) = (uenvStored (first :: rest)).getD k 0)
    (fits : i + (uenvStored (first :: rest)).length ≤ envSize) :
    uenvListFrom buf envSize i =
      uenvPrinted (decide (i + (uenvStored (first :: rest)).length = envSize)) (first :: rest) := by
  induction rest generalizing i first with
  | nil =>
    simp only [uenvStored_cons, uenvStored_nil, List.length_append, List.length_singleton] at same fits ⊢
    have start : uenvListFrom buf envSize i = _ :=
      uenvListFrom_prefix (nul first List.mem_cons_self) (fun k small => by
        rw [same k (by omega), List.getD_append _ _ _ _ small]) (by omega)
    rw [start, uenvPrinted]
    congr 1
    by_cases tight : i + (first.length + 1) = envSize
    · rw [uenvListFrom, if_neg (by omega)]
      simp [tight]
    · have zero : buf (i + first.length) = 0#8 := by
        rw [same _ (by omega), List.getD_append_right _ _ _ _ (le_refl _), Nat.sub_self]
        rfl
      have next : buf (i + first.length + 1) = 0#8 := by
        have behind := same (first.length + 1) (by omega)
        rw [List.getD_eq_default _ _ (by simp)] at behind
        exact behind
      rw [uenvListFrom, if_pos (by omega), zero, next]
      simp [tight]
  | cons second rest ih =>
    rw [uenvStored_cons] at same fits ⊢
    simp only [List.length_append, List.length_cons] at fits ⊢
    have filled : 0 < second.length := List.length_pos_iff.mpr (nonempty second List.mem_cons_self)
    have room : second.length < (uenvStored (second :: rest)).length := by
      rw [uenvStored_cons, List.length_append, List.length_cons]
      omega
    have start : uenvListFrom buf envSize i = _ :=
      uenvListFrom_prefix (nul first List.mem_cons_self) (fun k small => by
        rw [same k (by omega), List.getD_append _ _ _ _ small]) (by omega)
    have shifted : ∀ k, i + first.length + 1 + k < envSize →
        buf (i + first.length + 1 + k) = (uenvStored (second :: rest)).getD k 0 := by
      intro k small
      have here := same (first.length + 1 + k) (by omega)
      rw [List.getD_append_right _ _ _ _ (by omega), show first.length + 1 + k - first.length = k + 1 by omega,
        List.getD_cons_succ] at here
      rwa [show i + (first.length + 1 + k) = i + first.length + 1 + k by omega] at here
    have tail := ih _ (fun stored member => nul stored (List.mem_cons_of_mem _ member))
      (fun stored member => nonempty stored (List.mem_cons_of_mem _ member)) shifted (by omega)
    have zero : buf (i + first.length) = 0#8 := by
      rw [same _ (by omega), List.getD_append_right _ _ _ _ (le_refl _), Nat.sub_self]
      rfl
    have next : buf (i + first.length + 1) ≠ 0#8 := by
      obtain ⟨c, more, rfl⟩ := List.exists_cons_of_ne_nil (nonempty second List.mem_cons_self)
      have here := shifted 0 (by omega)
      rw [uenvStored_cons] at here
      intro none
      apply nul (c :: more) (by simp)
      rw [← none]
      rw [Nat.add_zero] at here
      rw [here]
      exact List.mem_cons_self
    rw [start, uenvListFrom, if_pos (by omega), zero]
    simp only [uenvPrinted, if_neg next]
    rw [tail]
    simp only [Nat.add_assoc, Nat.add_comm 1]
    rfl

theorem uenvPrinted_append (tight : Bool) (before : List (List Byte)) (last : List Byte) :
    uenvPrinted tight (before ++ [last]) = (before.flatMap fun stored => stored.flatMap uenvEmit ++ [10#8]) ++
      (last.flatMap uenvEmit ++ if tight then [] else [10#8]) := by
  induction before with
  | nil => rfl
  | cons first rest ih =>
    obtain ⟨second, more, shape⟩ := List.exists_cons_of_ne_nil (show rest ++ [last] ≠ [] by simp)
    rw [shape] at ih
    rw [List.cons_append, shape, uenvPrinted, ih]
    · simp
    · simp

theorem uenvPrinted_head (tight : Bool) (first : List Byte) (rest : List (List Byte)) :
    (uenvPrinted tight (first :: rest)).takeWhile (· ≠ 10#8) = (first.flatMap uenvEmit).takeWhile (· ≠ 10#8) := by
  have stop (s more : List Byte) : (s ++ 10#8 :: more).takeWhile (· ≠ 10#8) = s.takeWhile (· ≠ 10#8) := by
    induction s with
    | nil => rfl
    | cons c s ih =>
      by_cases newline : c = 10#8
      · simp [newline]
      · simp only [List.cons_append]
        rw [List.takeWhile_cons_of_pos (by simpa using newline), ih,
          List.takeWhile_cons_of_pos (by simpa using newline)]
  cases rest with
  | nil =>
    rw [uenvPrinted]
    cases tight
    · exact stop _ []
    · simp
  | cons second rest =>
    rw [uenvPrinted]
    · exact stop _ _
    · simp

/-- The stored lines as the lister sees them: without a part, a first byte 1 is taken for one. -/
def uenvVisible (part : Option Int) : List (List Byte) → List (List Byte)
  | [] => []
  | first :: rest => if part = none ∧ first.head? = some 1#8 then first.tail :: rest else first :: rest

theorem uenvPart_valid {title : CString} {envSize part : Int} (valid : uenvTitle title = some (envSize, some part)) :
    part = 0 ∨ part = 1 := by
  unfold uenvTitle at valid
  split at valid
  · cases valid
  obtain ⟨⟨size, rest⟩, _, checks⟩ := Option.bind_eq_some_iff.mp valid
  dsimp only at checks
  split at checks
  · cases checks
  split at checks
  · cases checks
  split at checks
  · rename_i known
    obtain rfl : _ = part := Option.some.inj (Prod.mk.inj (Option.some.inj checks)).2
    exact known
  · cases checks

theorem uenvUnescape_nonempty {line : CString} (nonempty : line ≠ []) : uenvUnescape line ≠ [] := by
  induction line using escape_induction with
  | nil => exact absurd rfl nonempty
  | carriage rest => rw [uenvUnescape_return]; exact List.cons_ne_nil _ _
  | newline rest => rw [uenvUnescape_newline]; exact List.cons_ne_nil _ _
  | plain c rest head => rw [uenvUnescape_plain head]; exact List.cons_ne_nil _ _

theorem uenvContent_eq (part : Option Int) (lines : List CString) :
    uenvContent part lines = uenvPartBytes part ++ uenvStored (lines.map uenvUnescape) := by
  simp [uenvContent, uenvStored, List.flatMap_map]

section Image

variable {title : CString} {lines : List CString} {envSize : Int} {part : Option Int}

theorem uenvList_printed (size : Nat) (junk : Nat → Byte) (file : File)
    (valid : uenvTitle title = some (envSize, part)) (filled : lines ≠ [])
    (nonempty : ∀ line ∈ lines, line ≠ []) (nul : ∀ line ∈ lines, 0#8 ∉ line)
    (fits : 4 + (uenvContent part lines).length ≤ size)
    (read : ∀ k, 4 + k < size → fillBuffer junk ((⟨file, 0, 0⟩ : Fd).read size).1 (4 + k) =
      (uenvContent part lines).getD k 0) :
    (uenvList junk size ⟨file, 0, 0⟩).2 =
      uenvPrinted (decide (4 + (uenvContent part lines).length = size)) (uenvVisible part (lines.map uenvUnescape)) := by
  obtain ⟨line, rest, rfl⟩ := List.exists_cons_of_ne_nil filled
  have storedNul : ∀ stored ∈ (line :: rest).map uenvUnescape, 0#8 ∉ stored := by
    intro stored member
    obtain ⟨other, inside, rfl⟩ := List.mem_map.mp member
    exact uenvUnescape_nul (nul other inside)
  have storedNonempty : ∀ stored ∈ rest.map uenvUnescape, stored ≠ [] := by
    intro stored member
    obtain ⟨other, inside, rfl⟩ := List.mem_map.mp member
    exact uenvUnescape_nonempty (nonempty other (List.mem_cons_of_mem _ inside))
  obtain ⟨c, tail, first⟩ := List.exists_cons_of_ne_nil
    (uenvUnescape_nonempty (nonempty line List.mem_cons_self))
  rw [uenvContent_eq] at fits read ⊢
  rw [List.map_cons] at fits read storedNul ⊢
  simp only [uenvList]
  generalize fillBuffer junk ((⟨file, 0, 0⟩ : Fd).read size).1 = buf at read ⊢
  cases part with
  | some part =>
    have flag : uenvPartBytes (some part) = [BitVec.ofInt 8 part] := rfl
    rw [flag] at fits read ⊢
    simp only [List.length_append, List.length_singleton] at fits ⊢
    have known : buf 4 = 0#8 ∨ buf 4 = 1#8 := by
      have here : buf 4 = BitVec.ofInt 8 part := read 0 (by omega)
      rw [here]
      rcases uenvPart_valid valid with rfl | rfl
      · exact Or.inl (by decide)
      · exact Or.inr (by decide)
    have visible : uenvVisible (some part) (uenvUnescape line :: rest.map uenvUnescape) =
        uenvUnescape line :: rest.map uenvUnescape := by simp [uenvVisible]
    rw [if_pos known, visible]
    have listed := uenvListFrom_stored buf size 5 storedNul storedNonempty (by
      intro k small
      have here := read (1 + k) (by omega)
      rw [List.getD_append_right _ _ _ _ (by simp)] at here
      rwa [show 4 + (1 + k) = 5 + k by omega, List.length_singleton, Nat.add_sub_cancel_left] at here) (by omega)
    rw [show 4 + (1 + (uenvStored (uenvUnescape line :: rest.map uenvUnescape)).length) =
      5 + (uenvStored (uenvUnescape line :: rest.map uenvUnescape)).length by omega]
    exact listed
  | none =>
    have flag : uenvPartBytes none = [] := rfl
    rw [flag] at fits read ⊢
    simp only [List.nil_append] at fits read ⊢
    have here : buf 4 = c := by
      have start := read 0 (by rw [uenvStored_cons, first] at fits; simp at fits; omega)
      rw [uenvStored_cons, first] at start
      exact start
    have nonzero : c ≠ 0#8 := fun zero =>
      storedNul (uenvUnescape line) List.mem_cons_self (by rw [first, zero]; exact List.mem_cons_self)
    by_cases one : c = 1#8
    · rw [if_pos (Or.inr (here.trans one))]
      have visible : uenvVisible none (uenvUnescape line :: rest.map uenvUnescape) =
          tail :: rest.map uenvUnescape := by simp [uenvVisible, first, one]
      have longer : (uenvStored (uenvUnescape line :: rest.map uenvUnescape)).length =
          (uenvStored (tail :: rest.map uenvUnescape)).length + 1 := by
        rw [uenvStored_cons, uenvStored_cons, first]
        simp only [List.length_append, List.length_cons]
        omega
      rw [visible]
      have tailNul : ∀ stored ∈ tail :: rest.map uenvUnescape, 0#8 ∉ stored := by
        intro stored member
        rcases List.mem_cons.mp member with rfl | inside
        · exact fun zero => storedNul (uenvUnescape line) List.mem_cons_self
            (by rw [first]; exact List.mem_cons_of_mem _ zero)
        · exact storedNul stored (List.mem_cons_of_mem _ inside)
      have listed := uenvListFrom_stored buf size 5 tailNul storedNonempty (by
        intro k small
        have next := read (k + 1) (by omega)
        rw [uenvStored_cons, first, List.cons_append, List.getD_cons_succ] at next
        rw [uenvStored_cons]
        rwa [show 4 + (k + 1) = 5 + k by omega] at next) (by omega)
      refine listed.trans ?_
      congr 1
      exact decide_eq_decide.mpr (by rw [longer]; omega)
    · have other : ¬ (buf 4 = 0#8 ∨ buf 4 = 1#8) := by
        rw [here]
        exact fun flagged => flagged.elim nonzero one
      have visible : uenvVisible none (uenvUnescape line :: rest.map uenvUnescape) =
          uenvUnescape line :: rest.map uenvUnescape := by simp [uenvVisible, first, one]
      rw [if_neg other, visible]
      exact uenvListFrom_stored buf size 4 storedNul storedNonempty read fits

end Image

theorem uenvPrinted_count (tight : Bool) (before : List (List Byte)) (last : List Byte) :
    (uenvPrinted tight (before ++ [last])).count 10#8 + tight.toNat =
      ((before ++ [last]).map (List.count 10#8)).sum + (before ++ [last]).length := by
  rw [uenvPrinted_append]
  induction before with
  | nil => cases tight <;> simp [uenvEmit_flatMap_count]
  | cons first rest ih =>
    simp only [List.flatMap_cons, List.count_append, uenvEmit_flatMap_count, List.cons_append, List.map_cons,
      List.sum_cons, List.length_cons] at ih ⊢
    have newline : List.count 10#8 [10#8] = 1 := by decide
    omega

theorem uenvPrinted_length (tight : Bool) (before : List (List Byte)) (last : List Byte) :
    (uenvPrinted tight (before ++ [last])).length + tight.toNat =
      ((before ++ [last]).map fun stored => (stored.flatMap uenvEmit).length).sum + (before ++ [last]).length := by
  rw [uenvPrinted_append]
  induction before with
  | nil => cases tight <;> simp
  | cons first rest ih =>
    simp only [List.flatMap_cons, List.length_append, List.cons_append, List.map_cons, List.sum_cons,
      List.length_cons, List.length_nil] at ih ⊢
    omega

theorem uenvShown_sum {lines : List CString} (plain : ∀ line ∈ lines, 10#8 ∉ line) :
    (lines.map fun line => (uenvShown line).length).sum = (lines.map List.length).sum +
      (lines.map (List.count 13#8)).sum + (lines.map fun line => (uenvUnescape line).count 10#8).sum := by
  induction lines with
  | nil => rfl
  | cons line rest ih =>
    have tail := ih fun other member => plain other (List.mem_cons_of_mem _ member)
    have head := uenvShown_length (plain line List.mem_cons_self)
    simp only [List.map_cons, List.sum_cons]
    omega

theorem uenvShown_same {line : CString} (plain : 10#8 ∉ line) (returns : 13#8 ∉ line)
    (newline : 10#8 ∉ uenvUnescape line) : uenvShown line = line := by
  have shown : 10#8 ∉ uenvShown line := by
    rw [← List.count_eq_zero, uenvShown, uenvEmit_flatMap_count]
    exact List.count_eq_zero.mpr newline
  have same := uenvShown_filter plain returns
  rwa [List.filter_eq_self.mpr] at same
  intro c member
  have other : c ≠ 10#8 := fun newline => shown (newline ▸ member)
  simpa using other

theorem uenvShown_end {line shown : CString} (plain : 10#8 ∉ line) (returns : 13#8 ∉ line)
    (stored : uenvUnescape line = shown ++ [10#8]) (newline : 10#8 ∉ shown) : uenvShown line = line ++ [10#8] := by
  have same := uenvShown_filter plain returns
  have emitted : 10#8 ∉ shown.flatMap uenvEmit ++ [92#8, 110#8] := by
    rw [← List.count_eq_zero, List.count_append, uenvEmit_flatMap_count, List.count_eq_zero.mpr newline]
    decide
  have shape : uenvShown line = (shown.flatMap uenvEmit ++ [92#8, 110#8]) ++ [10#8] := by
    rw [uenvShown, stored]
    simp [uenvEmit]
  rw [shape, List.filter_append, List.filter_eq_self.mpr] at same
  · have empty : [10#8].filter (· ≠ 10#8) = ([] : List Byte) := by decide
    rw [empty, List.append_nil] at same
    rw [shape, same]
  · intro c member
    have other : c ≠ 10#8 := fun newline => emitted (newline ▸ member)
    simpa using other

theorem textLines_flatMap {lines : List (List Byte)} (plain : ∀ line ∈ lines, 10#8 ∉ line) (rest : List Byte) :
    textLines ((lines.flatMap (· ++ [10#8])) ++ rest) = lines ++ textLines rest := by
  induction lines with
  | nil => rfl
  | cons line lines ih =>
    have tail := ih fun other member => plain other (List.mem_cons_of_mem _ member)
    have head := textLines_line (plain line List.mem_cons_self) (lines.flatMap (· ++ [10#8]) ++ rest)
    rw [tail] at head
    simpa using head

theorem uenvPrinted_last (before : List (List Byte)) {last : List Byte} (nonempty : last ≠ [])
    (ended : (uenvPrinted true (before ++ [last])).getLast? = none ∨
      (uenvPrinted true (before ++ [last])).getLast? = some 10#8) : ∃ shown, last = shown ++ [10#8] := by
  obtain ⟨shown, c, rfl⟩ : ∃ shown c, last = shown ++ [c] :=
    ⟨last.dropLast, last.getLast nonempty, (List.dropLast_concat_getLast nonempty).symm⟩
  refine ⟨shown, ?_⟩
  rw [uenvPrinted_append, if_pos rfl, List.append_nil, List.flatMap_append, ← List.append_assoc] at ended
  simp only [List.flatMap_cons, List.flatMap_nil, List.append_nil] at ended
  have newline : c = 10#8 := by
    by_contra other
    by_cases carriage : c = 13#8
    · have emitted : uenvEmit c = [92#8] ++ [114#8] := by
        rw [carriage]
        decide
      rw [emitted, ← List.append_assoc] at ended
      simp at ended
    · have emitted : uenvEmit c = [c] := by rw [uenvEmit, if_neg carriage, if_neg other]
      rw [emitted] at ended
      simp [other] at ended
  rw [newline]

section Image

variable {title : CString} {lines : List CString} {envSize : Int} {part : Option Int}

/-- The lines of the text come back, whatever malloc leaves in the buffers. -/
def UenvListMeets (text : List Byte) (envSize : Int) (lines : List CString) : Prop :=
  ∀ packJunk listJunk, ∃ image, uenvPack packJunk text = some image ∧
    textLines (uenvList listJunk envSize.toNat ⟨image.file, 0, 0⟩).2 = lines

/-- No line has a carriage return or an escaped newline, but for one at the very end of an environment that
is filled to its last byte, and the first byte is no part by mistake. -/
structure UenvListSafe (envSize : Int) (part : Option Int) (lines : List CString) : Prop where
  returns : ∀ line ∈ lines, 13#8 ∉ line
  newlines : (∀ line ∈ lines, 10#8 ∉ uenvUnescape line) ∨
    (4 + (uenvContent part lines).length = envSize ∧ ∃ before last shown, lines = before ++ [last] ∧
      uenvUnescape last = shown ++ [10#8] ∧ 10#8 ∉ shown ∧ ∀ line ∈ before, 10#8 ∉ uenvUnescape line)
  flag : part = none → ∀ line ∈ lines.head?, line.head? ≠ some 1#8

theorem uenvPack_list (packJunk listJunk : Nat → Byte) (plain : ∀ line ∈ title :: lines, UenvPlain line)
    (valid : uenvTitle title = some (envSize, part)) (filled : lines ≠ []) (nonempty : ∀ line ∈ lines, line ≠ [])
    (fits : 4 + (uenvContent part lines).length ≤ envSize) (small : envSize ≤ 0x7ffff000) :
    ∃ image, uenvPack packJunk (uenvText title lines) = some image ∧
      (uenvList listJunk envSize.toNat ⟨image.file, 0, 0⟩).2 =
        uenvPrinted (decide (4 + (uenvContent part lines).length = envSize))
          (uenvVisible part (lines.map uenvUnescape)) := by
  obtain ⟨_, packed⟩ := uenvPack_text packJunk plain valid (by omega) (by omega)
  have size : (uenvFile envSize.toNat (uenvContent part lines)).size = envSize.toNat := by
    rw [uenvFile_size]
    split <;> omega
  rw [size, if_neg (by omega)] at packed
  refine ⟨_, packed, ?_⟩
  rw [Fd.write_file, Fd.lseek64_file, Fd.lseek64_pos _ _ (by decide)]
  generalize uenvScan packJunk _ _ = crc
  have length : ((uenvFile envSize.toNat (uenvContent part lines)).writeAt 0 (leBytes 4 crc.toNat)).size =
      envSize.toNat := by
    rw [File.writeAt_size _ _ _ (by simp [leBytes]), size, leBytes_length]
    omega
  have listed := uenvList_printed envSize.toNat listJunk
    ((uenvFile envSize.toNat (uenvContent part lines)).writeAt 0 (leBytes 4 crc.toNat)) valid filled nonempty
    (fun line member => (plain line (List.mem_cons_of_mem _ member)).2.2) (by omega) (by
      intro k inside
      rw [Fd.read_bytes _ _ (by omega), File.readAt_full _ _ _ (by rw [length]; show 0 + envSize.toNat ≤ _; omega),
        fillBuffer, if_pos (by simpa using inside), File.slice_getD _ _ _ _ inside,
        File.writeAt_byte_outside _ _ _ _ (Or.inr (by simp)), Nat.zero_add]
      exact uenvFile_byte _ _ k)
  rw [listed]
  congr 1
  exact decide_eq_decide.mpr (by omega)

theorem uenvVisible_whole (flag : part = none → ∀ line ∈ lines.head?, line.head? ≠ some 1#8) :
    uenvVisible part (lines.map uenvUnescape) = lines.map uenvUnescape := by
  cases lines with
  | nil => rfl
  | cons line rest =>
    rw [List.map_cons, uenvVisible, if_neg]
    intro ⟨absent, one⟩
    exact flag absent line rfl ((uenvUnescape_head line).mp one)

section Lines

variable (plain : ∀ line ∈ lines, 10#8 ∉ line) (nonempty : ∀ line ∈ lines, line ≠ [])
include plain nonempty

theorem UenvListSafe.printed (safe : UenvListSafe envSize part lines) (filled : lines ≠ []) :
    textLines (uenvPrinted (decide (4 + (uenvContent part lines).length = envSize))
      (uenvVisible part (lines.map uenvUnescape))) = lines := by
  obtain ⟨returns, newlines, flag⟩ := safe
  rw [uenvVisible_whole flag]
  generalize tightness : decide (4 + (uenvContent part lines).length = envSize) = tight
  obtain ⟨before, last, rfl⟩ : ∃ before last, lines = before ++ [last] :=
    ⟨lines.dropLast, lines.getLast filled, (List.dropLast_concat_getLast filled).symm⟩
  have front : ∀ line ∈ before, 10#8 ∉ uenvUnescape line := by
    rcases newlines with all | ⟨_, before', last', _, shape, _, _, all⟩
    · exact fun line member => all line (List.mem_append_left _ member)
    · obtain ⟨rfl, _⟩ := List.append_inj' shape rfl
      exact all
  have shownFront : (before.map uenvUnescape).flatMap (fun stored => stored.flatMap uenvEmit ++ [10#8]) =
      before.flatMap (· ++ [10#8]) := by
    rw [List.flatMap_map, List.flatMap_def, List.flatMap_def]
    congr 1
    apply List.map_congr_left
    intro line member
    have inside : line ∈ before ++ [last] := List.mem_append_left _ member
    have same := uenvShown_same (plain line inside) (returns line inside) (front line member)
    rw [uenvShown] at same
    rw [same]
  have member : last ∈ before ++ [last] := by simp
  rw [List.map_append, List.map_singleton, uenvPrinted_append, shownFront,
    textLines_flatMap fun line inside => plain line (List.mem_append_left _ inside)]
  congr 1
  rcases newlines with all | ⟨full, before', last', shown, shape, stored, none, _⟩
  · have same := uenvShown_same (plain last member) (returns last member) (all last member)
    rw [uenvShown] at same
    rw [same]
    cases tight
    · exact textLines_line (plain last member) []
    · simpa using textLines_last (plain last member) (nonempty last member)
  · obtain ⟨_, same⟩ := List.append_inj' shape rfl
    obtain rfl := (List.cons.inj same).1
    have shownLast := uenvShown_end (plain last member) (returns last member) stored none
    rw [uenvShown] at shownLast
    rw [shownLast, ← tightness, decide_eq_true full, if_pos rfl, List.append_nil]
    exact textLines_line (plain last member) []

theorem uenvListSafe_of_lines (filled : lines ≠ [])
    (same : textLines (uenvPrinted (decide (4 + (uenvContent part lines).length = envSize))
      (uenvVisible part (lines.map uenvUnescape))) = lines) : UenvListSafe envSize part lines := by
  have flag : part = none → ∀ line ∈ lines.head?, line.head? ≠ some 1#8 := by
    intro absent line head one
    obtain ⟨rest, rfl⟩ : ∃ rest, lines = line :: rest := by
      cases lines with
      | nil => cases head
      | cons first rest =>
        obtain rfl := Option.some.inj head
        exact ⟨rest, rfl⟩
    obtain ⟨tail, rfl⟩ : ∃ tail, line = 1#8 :: tail := by
      cases line with
      | nil => cases one
      | cons c tail =>
        obtain rfl := Option.some.inj one
        exact ⟨tail, rfl⟩
    have stored : uenvUnescape (1#8 :: tail) = 1#8 :: uenvUnescape tail := by
      apply uenvUnescape_plain
      constructor <;>
      · rintro ⟨more, shape⟩
        exact absurd (List.cons.inj shape).1 (by decide)
    have start := textLines_head same
    rw [List.map_cons, stored, uenvVisible, if_pos ⟨absent, rfl⟩, List.tail_cons, uenvPrinted_head] at start
    exact uenvShown_tail tail start
  rw [uenvVisible_whole flag] at same
  generalize tightness : decide (4 + (uenvContent part lines).length = envSize) = tight at same
  obtain ⟨before, last, shape⟩ : ∃ before last, lines = before ++ [last] :=
    ⟨lines.dropLast, lines.getLast filled, (List.dropLast_concat_getLast filled).symm⟩
  have count := uenvPrinted_count tight (before.map uenvUnescape) (uenvUnescape last)
  have length := uenvPrinted_length tight (before.map uenvUnescape) (uenvUnescape last)
  have stored : before.map uenvUnescape ++ [uenvUnescape last] = lines.map uenvUnescape := by
    rw [shape, List.map_append, List.map_singleton]
  rw [stored, List.length_map, List.map_map] at count length
  have total := textLines_total (uenvPrinted tight (lines.map uenvUnescape))
  have number := textLines_length (uenvPrinted tight (lines.map uenvUnescape))
  rw [same] at total number
  have shown := uenvShown_sum plain
  have lengthSum : ((lines.map ((fun stored => (List.flatMap uenvEmit stored).length) ∘ uenvUnescape)).sum) =
      (lines.map fun line => (uenvShown line).length).sum := rfl
  have countSum : ((lines.map (List.count 10#8 ∘ uenvUnescape)).sum) =
      (lines.map fun line => (uenvUnescape line).count 10#8).sum := rfl
  rw [lengthSum] at length
  rw [countSum] at count
  have noReturns : (lines.map (List.count 13#8)).sum = 0 := by omega
  refine ⟨?_, ?_, flag⟩
  · intro line member
    rw [← List.count_eq_zero]
    exact List.sum_eq_zero_iff_forall_eq_nat.mp noReturns _ (List.mem_map_of_mem member)
  · by_cases none : (lines.map fun line => (uenvUnescape line).count 10#8).sum = 0
    · left
      intro line member
      rw [← List.count_eq_zero]
      exact List.sum_eq_zero_iff_forall_eq_nat.mp none _ (List.mem_map_of_mem member)
    · right
      obtain rfl : tight = true := by
        cases tight
        · simp only [Bool.toNat_false] at count
          split at number <;> omega
        · rfl
      simp only [Bool.toNat_true] at count
      have inside : last ∈ lines := by rw [shape]; simp
      obtain ⟨shown, stored⟩ := uenvPrinted_last (before.map uenvUnescape)
        (uenvUnescape_nonempty (nonempty last inside)) (by
          rw [stored]
          split at number
          · assumption
          · omega)
      have one : (lines.map fun line => (uenvUnescape line).count 10#8).sum = 1 := by
        split at number <;> omega
      rw [shape, List.map_append, List.sum_append, List.map_singleton, List.sum_singleton, stored,
        List.count_append] at one
      have newline : List.count 10#8 [10#8] = 1 := by decide
      refine ⟨of_decide_eq_true tightness, before, last, shown, shape, stored, ?_, ?_⟩
      · rw [← List.count_eq_zero]
        omega
      · intro line member
        have front : (before.map fun line => (uenvUnescape line).count 10#8).sum = 0 := by omega
        rw [← List.count_eq_zero]
        exact List.sum_eq_zero_iff_forall_eq_nat.mp front _ (List.mem_map_of_mem member)

end Lines

/-- The printed lines of a packed text are its lines exactly for texts without escaped newlines, carriage
returns and a first byte 1 in the place of the part. -/
theorem uenvList_exact (plain : ∀ line ∈ title :: lines, UenvPlain line)
    (valid : uenvTitle title = some (envSize, part)) (filled : lines ≠ []) (nonempty : ∀ line ∈ lines, line ≠ [])
    (fits : 4 + (uenvContent part lines).length ≤ envSize) (small : envSize ≤ 0x7ffff000) :
    UenvListMeets (uenvText title lines) envSize lines ↔ UenvListSafe envSize part lines := by
  have raw : ∀ line ∈ lines, 10#8 ∉ line := fun line member => (plain line (List.mem_cons_of_mem _ member)).2.1
  constructor
  · intro meets
    obtain ⟨image, packed, same⟩ := meets (fun _ => 0) (fun _ => 0)
    obtain ⟨image', packed', listed⟩ := uenvPack_list (fun _ => 0) (fun _ => 0) plain valid filled nonempty fits small
    obtain rfl : image = image' := Option.some.inj (packed.symm.trans packed')
    rw [listed] at same
    exact uenvListSafe_of_lines raw nonempty filled same
  · intro safe packJunk listJunk
    obtain ⟨image, packed, listed⟩ := uenvPack_list packJunk listJunk plain valid filled nonempty fits small
    refine ⟨image, packed, ?_⟩
    rw [listed]
    exact safe.printed raw nonempty filled

end Image

def uenvTitle4K : CString := [35#8, 117#8, 69#8, 110#8, 118#8, 32#8, 52#8, 48#8, 57#8, 54#8, 32#8, 48#8]

theorem uenvList_exact_return :
    UenvListMeets (uenvText uenvTitle4K [[97#8, 61#8, 98#8, 92#8, 114#8]]) 4096 [[97#8, 61#8, 98#8, 92#8, 114#8]] :=
  (uenvList_exact (by unfold UenvPlain; decide) (show uenvTitle uenvTitle4K = some (4096, some 0) by decide)
    (by decide) (by decide) (by decide) (by decide)).mpr
      ⟨by decide, Or.inl (by decide), by decide⟩

/-- `a\nb` is listed as two lines. -/
theorem uenvList_newline : uenvTitle uenvTitle4K = some (4096, some 0) ∧
    (∀ line ∈ [uenvTitle4K, [97#8, 92#8, 110#8, 98#8]], UenvPlain line) ∧
    ¬ UenvListMeets (uenvText uenvTitle4K [[97#8, 92#8, 110#8, 98#8]]) 4096 [[97#8, 92#8, 110#8, 98#8]] := by
  have valid : uenvTitle uenvTitle4K = some (4096, some 0) := by decide
  have plain : ∀ line ∈ [uenvTitle4K, [97#8, 92#8, 110#8, 98#8]], UenvPlain line := by
    unfold UenvPlain
    decide
  refine ⟨valid, plain, ?_⟩
  intro meets
  obtain ⟨image, packed, same⟩ := meets (fun _ => 0) (fun _ => 0)
  obtain ⟨image', packed', listed⟩ := uenvPack_list (fun _ => 0) (fun _ => 0) plain valid
    (List.cons_ne_nil _ _) (by decide) (by decide) (by decide)
  obtain rfl : image = image' := Option.some.inj (packed.symm.trans packed')
  rw [listed] at same
  exact absurd same (by decide)

end ImgEditor
