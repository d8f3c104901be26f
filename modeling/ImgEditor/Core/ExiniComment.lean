import ImgEditor.Core.Exini

namespace ImgEditor

open Storage CText

/-- No user of the loader sets `prop_handler`, nor both quirks. -/
def exiniMode (enableUnknownData dtbocfg : Bool) : Exini :=
  ⟨enableUnknownData, none, if dtbocfg then EXINI_QUIRK_DTBOCFG else 0⟩

def commentChar (dtbocfg : Bool) : Byte := if dtbocfg then 35 else 59

/-- What `exini_default_kv_handler` makes of a value. -/
def exiniData (enableUnknown : Bool) (value : CString) : Option ExiniData :=
  if value = [] then some .null
  else if value.head? = some 34#8 ∧ value.getLast? = some 34#8 then
    some (.string ((value.drop 1).dropLast.take 127))
  else if (strtoulAnyBase value).2 = [] then some (.ulong (strtoulAnyBase value).1)
  else if enableUnknown then some (.unknown (value.take 127))
  else none

theorem exiniDefaultKvHandler_data (enableUnknown : Bool) (section_ : ExiniSection) (key value : CString) :
    exiniDefaultKvHandler enableUnknown section_ key value =
      (exiniData enableUnknown value).map (exiniAddProperty section_ key) := by
  unfold exiniDefaultKvHandler exiniData
  dsimp only
  split
  · rfl
  · split
    · rfl
    · split
      · rfl
      · split <;> rfl

theorem mem_dropWhile {p : Byte → Bool} {c : Byte} (other : p c = false) {s : List Byte} (inside : c ∈ s) :
    c ∈ s.dropWhile p := by
  rw [← List.takeWhile_append_dropWhile (p := p) (l := s)] at inside
  rcases List.mem_append.mp inside with front | behind
  · have taken := List.mem_takeWhile_imp front
    rw [other] at taken
    cases taken
  · exact behind

theorem mem_takeSign {c : Byte} (minus : c ≠ 45) (plus : c ≠ 43) {s : CString} (inside : c ∈ s) :
    c ∈ (takeSign s).2 := by
  cases s with
  | nil => exact inside
  | cons d rest =>
    rw [takeSign]
    split
    · exact (List.mem_cons.mp inside).resolve_left (by simp_all)
    · split
      · exact (List.mem_cons.mp inside).resolve_left (by simp_all)
      · exact inside

theorem mem_skipHexPrefix {c : Byte} (zero : c ≠ 48) (small : c ≠ 120) (large : c ≠ 88) (base : Nat) {s : CString}
    (inside : c ∈ s) : c ∈ skipHexPrefix base s := by
  unfold skipHexPrefix
  split
  · split
    · rename_i prefixed
      simp only [List.mem_cons] at inside
      rcases inside with same | same | inside
      · exact absurd (same.trans prefixed.2.1) zero
      · rcases prefixed.2.2.1 with x | x
        · exact absurd (same.trans x) small
        · exact absurd (same.trans x) large
      · exact inside
    · exact inside
  · exact inside

theorem detectBase_le (s : CString) : detectBase s ≤ 16 := by
  unfold detectBase
  split
  · decide
  · split <;> decide
  · split
    · split <;> decide
    · decide

/-- Neither a comment character nor a quote is part of a number. -/
theorem strtoulAnyBase_other {c : Byte} (other : c = 34 ∨ ∃ dtbocfg, c = commentChar dtbocfg) {s : CString}
    (inside : c ∈ s) : (strtoulAnyBase s).2 ≠ [] := by
  obtain ⟨space, minus, plus, zero, small, large, value⟩ : isSpace c = false ∧ c ≠ 45 ∧ c ≠ 43 ∧ c ≠ 48 ∧
      c ≠ 120 ∧ c ≠ 88 ∧ digitValue c = 255 := by
    rcases other with rfl | ⟨dtbocfg, rfl⟩
    · decide
    · cases dtbocfg <;> decide
  have base := detectBase_le (takeSign (s.dropWhile isSpace)).2
  have digit : isDigit (detectBase (takeSign (s.dropWhile isSpace)).2) c = false := by
    rw [isDigit, value]
    exact decide_eq_false (by omega)
  unfold strtoulAnyBase strtoull
  dsimp only
  split
  · exact List.ne_nil_of_mem inside
  · exact List.ne_nil_of_mem (mem_dropWhile digit (mem_skipHexPrefix zero small large _
      (mem_takeSign minus plus (mem_dropWhile space inside))))

/-- Whether a value is read as the same one with more text behind it: its data, cut to 127 bytes, ends inside it. -/
def ValueCut (value more : CString) : Prop :=
  if value.head? = some 34#8 then
    if value.getLast? = some 34#8 then 129 ≤ value.length ∧ more.getLast? = some 34#8
    else 127 ≤ value.length ∧ more.getLast? ≠ some 34#8
  else 127 ≤ value.length ∧ (strtoulAnyBase value).2 ≠ []

theorem take_append_eq {n : Nat} {s more : CString} (some : more ≠ []) :
    (s ++ more).take n = s.take n ↔ n ≤ s.length := by
  constructor
  · intro same
    have lengths := congrArg List.length same
    have positive := List.length_pos_iff.mpr some
    rw [List.length_take, List.length_take, List.length_append] at lengths
    omega
  · exact fun long => List.take_append_of_le_length long

theorem dropLast_cons_append {first : Byte} {value more : CString} (some : more ≠ []) :
    ((first :: value ++ more).drop 1).dropLast = value ++ more.dropLast := by
  rw [List.cons_append, List.drop_one, List.tail_cons, List.dropLast_append_of_ne_nil some]

/-- What is between two quotes, with the second one moved behind more text. -/
theorem quoted_more {dtbocfg : Bool} {value more : CString} (closed : (34#8 :: value).getLast? = some 34#8)
    (ends : more.getLast? = some 34#8) (comment : commentChar dtbocfg ∈ more) :
    (value ++ more.dropLast).take 127 = value.dropLast.take 127 ↔ 129 ≤ (34#8 :: value).length := by
  have quote : commentChar dtbocfg ≠ 34 := by cases dtbocfg <;> decide
  obtain ⟨front, rfl⟩ := List.getLast?_eq_some_iff.mp ends
  rw [List.dropLast_concat]
  cases value using List.reverseRecOn with
  | nil =>
    have inside : commentChar dtbocfg ∈ front := (List.mem_append.mp comment).resolve_right (by simpa using quote)
    have nonempty := List.ne_nil_of_mem inside
    simp [nonempty]
  | append_singleton inner final =>
    rw [← List.cons_append, List.getLast?_concat] at closed
    obtain rfl := Option.some.inj closed
    rw [List.dropLast_concat, List.append_assoc, take_append_eq (by simp)]
    simp

theorem exiniData_more {enable dtbocfg : Bool} {value more : CString} {data : ExiniData}
    (read : exiniData enable value = some data) (comment : commentChar dtbocfg ∈ more) :
    exiniData enable (value ++ more) = some data ↔ ValueCut value more := by
  have some := List.ne_nil_of_mem comment
  have number := strtoulAnyBase_other (.inr ⟨dtbocfg, rfl⟩) (List.mem_append_right value comment)
  have last : (value ++ more).getLast? = more.getLast? := by
    rw [List.getLast?_append_of_ne_nil _ some]
  cases value with
  | nil =>
    rw [exiniData, if_pos rfl] at read
    rw [ValueCut, if_neg (by simp), ← Option.some.inj read, List.nil_append, exiniData, if_neg some]
    refine iff_of_false ?_ (by simp)
    split
    · simp
    · split
      · simp
      · split <;> simp
  | cons first value =>
    have whole : first :: value ++ more ≠ [] := by simp
    rw [exiniData, if_neg (List.cons_ne_nil _ _)] at read
    rw [exiniData, if_neg whole, if_neg number, last, dropLast_cons_append some, ValueCut]
    simp only [List.cons_append, List.head?_cons, Option.some.injEq] at read ⊢
    by_cases quoted : first = 34#8
    · subst quoted
      simp only [true_and, if_true] at read ⊢
      by_cases closed : (34#8 :: value).getLast? = Option.some 34#8
      · rw [if_pos closed] at read ⊢
        obtain rfl := Option.some.inj read
        by_cases ends : more.getLast? = Option.some 34#8
        · rw [if_pos ends]
          rw [and_iff_left ends, ← quoted_more closed ends comment]
          simp
        · rw [if_neg ends]
          refine iff_of_false ?_ fun both => ends both.2
          split <;> simp
      · have open_ : (strtoulAnyBase (34#8 :: value)).2 ≠ [] := strtoulAnyBase_other (.inl rfl) List.mem_cons_self
        rw [if_neg closed, if_neg open_] at read
        rw [if_neg closed]
        cases enable with
        | false => cases read
        | true =>
          obtain rfl := Option.some.inj read
          by_cases ends : more.getLast? = Option.some 34#8
          · rw [if_pos ends]
            exact iff_of_false (by simp) fun both => both.2 ends
          · have cut := take_append_eq (n := 127) (s := 34#8 :: value) some
            rw [if_neg ends]
            simpa [ends] using cut
    · rw [if_neg fun both => quoted both.1] at read ⊢
      rw [if_neg quoted]
      by_cases numeric : (strtoulAnyBase (first :: value)).2 = []
      · rw [if_pos numeric] at read
        obtain rfl := Option.some.inj read
        refine iff_of_false ?_ fun both => both.2 numeric
        split <;> simp
      · rw [if_neg numeric] at read
        cases enable with
        | false => cases read
        | true =>
          obtain rfl := Option.some.inj read
          have cut := take_append_eq (n := 127) (s := first :: value) some
          simpa [numeric] using cut

theorem stringRemoveEolSpace_append {s : CString} (ended : ∀ c, s.getLast? = some c → isSpace c = false)
    (more : CString) : stringRemoveEolSpace (s ++ more) = s ++ stringRemoveEolSpace more := by
  have whole : s.reverse.dropWhile isSpace = s.reverse := by
    cases s using List.reverseRecOn with
    | nil => rfl
    | append_singleton s c =>
      rw [List.reverse_concat, List.dropWhile_cons_of_neg]
      simp [ended c List.getLast?_concat]
  simp only [stringRemoveEolSpace, List.rdropWhile, List.reverse_append, List.dropWhile_append, whole]
  split
  · rename_i empty
    rw [List.isEmpty_iff.mp empty, List.reverse_nil, List.append_nil, List.reverse_reverse]
  · rw [List.reverse_append, List.reverse_reverse]

theorem stringRemoveEolSpace_ended {s : CString} (ended : ∀ c, s.getLast? = some c → isSpace c = false) :
    stringRemoveEolSpace s = s := by
  have same := stringRemoveEolSpace_append ended []
  rw [List.append_nil] at same
  rw [same]
  simp [stringRemoveEolSpace]

theorem stringSkipHeadSpace_append {s : CString} (some : stringSkipHeadSpace s ≠ []) (more : CString) :
    stringSkipHeadSpace (s ++ more) = stringSkipHeadSpace s ++ more := by
  rw [stringSkipHeadSpace] at some
  rw [stringSkipHeadSpace, List.dropWhile_append, if_neg (by simpa using some), stringSkipHeadSpace]

theorem stringRemoveEolSpace_blank (s : CString) {more : CString} (blank : ∀ c ∈ more, isSpace c = true) :
    stringRemoveEolSpace (s ++ more) = stringRemoveEolSpace s := by
  rw [stringRemoveEolSpace, List.rdropWhile, List.reverse_append,
    List.dropWhile_append_of_pos fun c member => blank c (List.mem_reverse.mp member)]
  rfl

theorem exiniAddProperty_inj {section_ : ExiniSection} {key : CString} {left right : ExiniData} :
    exiniAddProperty section_ key left = exiniAddProperty section_ key right ↔ left = right := by
  simp [exiniAddProperty]

theorem exiniLoadProperty_mode (enable dtbocfg : Bool) (st : ExiniLoad) {key value : CString} (plain : 61#8 ∉ key) :
    exiniLoadProperty (exiniMode enable dtbocfg) st (key ++ 61#8 :: value) =
      if 61#8 ∈ value then none
      else
        st.last.bind fun section_ =>
          let name := stringRemoveEolSpace (stringSkipHeadSpace key)
          let value := stringRemoveEolSpace (stringSkipHeadSpace value)
          if name.countP isSpace > 0 then none
          else if value.head? ≠ some 34#8 ∧ value.countP isSpace > 0 then none
          else (exiniData enable value).map fun data => { st with last := some (exiniAddProperty section_ name data) } := by
  have count : (key ++ 61#8 :: value).count 61#8 ≠ 1 ↔ 61#8 ∈ value := by
    rw [List.count_append, List.count_cons_self, List.count_eq_zero.mpr plain, ← List.count_pos_iff]
    omega
  rw [exiniLoadProperty, takeWhile_other plain, dropWhile_other plain]
  simp only [count]
  split
  · rfl
  · cases st.last with
    | none => rfl
    | some section_ =>
      simp only [Option.bind_some, List.drop_one, List.tail_cons, exiniMode, Option.getD_none,
        exiniDefaultKvHandler_data, Option.map_map]
      rfl

/-- What may be left of a comment behind a text: spaces, and from a comment character on anything. -/
inductive CommentLeft (dtbocfg : Bool) : CString → Prop
  | spaces (gap : CString) (blank : ∀ c ∈ gap, isSpace c = true) : CommentLeft dtbocfg gap
  | comment (gap more : CString) (blank : ∀ c ∈ gap, isSpace c = true) :
    CommentLeft dtbocfg (gap ++ commentChar dtbocfg :: more)

/-- What is left behind a property with this value is spaces, or goes into data that is cut in front of it. -/
def PropertyFits (value left : CString) : Prop :=
  (∀ c ∈ left, isSpace c = true) ∨
    61#8 ∉ left ∧ ValueCut value (stringRemoveEolSpace left) ∧
      (value.head? ≠ some 34#8 → ∀ c ∈ stringRemoveEolSpace left, isSpace c = false)

theorem isSpace_comment (dtbocfg : Bool) : isSpace (commentChar dtbocfg) = false := by
  cases dtbocfg <;> decide

theorem stringRemoveEolSpace_comment (dtbocfg : Bool) (gap more : CString) :
    stringRemoveEolSpace (gap ++ commentChar dtbocfg :: more) =
      gap ++ commentChar dtbocfg :: stringRemoveEolSpace more := by
  have ended : ∀ c, (gap ++ [commentChar dtbocfg]).getLast? = some c → isSpace c = false := by
    intro c last
    rw [List.getLast?_concat] at last
    rw [← Option.some.inj last]
    exact isSpace_comment dtbocfg
  have whole := stringRemoveEolSpace_append ended more
  simpa using whole

theorem ValueCut.nonempty {value more : CString} (cut : ValueCut value more) : value ≠ [] := by
  intro empty
  subst empty
  simp [ValueCut] at cut

/-- The checks of a property's value, with more text behind the value. -/
theorem exiniData_checked {enable dtbocfg : Bool} {value more : CString} {data : ExiniData} {α : Type} {f : ExiniData → α}
    (injective : ∀ left right, f left = f right → left = right) (read : exiniData enable value = some data)
    (checked : ¬ (value.head? ≠ some 34#8 ∧ value.countP isSpace > 0)) (comment : commentChar dtbocfg ∈ more) :
    (if (value ++ more).head? ≠ some 34#8 ∧ (value ++ more).countP isSpace > 0 then none
      else (exiniData enable (value ++ more)).map f) = some (f data) ↔
      ValueCut value more ∧ (value.head? ≠ some 34#8 → ∀ c ∈ more, isSpace c = false) := by
  have cut := exiniData_more read comment
  have same : (exiniData enable (value ++ more)).map f = some (f data) ↔ ValueCut value more := by
    rw [← cut]
    constructor
    · intro mapped
      obtain ⟨other, found, equal⟩ := Option.map_eq_some_iff.mp mapped
      rw [found, injective _ _ equal]
    · intro found
      rw [found, Option.map_some]
  have spaces : value ≠ [] → ((value ++ more).head? ≠ some 34#8 ∧ (value ++ more).countP isSpace > 0 ↔
      ¬ (value.head? ≠ some 34#8 → ∀ c ∈ more, isSpace c = false)) := by
    intro nonempty
    obtain ⟨first, rest, rfl⟩ := List.exists_cons_of_ne_nil nonempty
    have other : (first :: rest).head? ≠ some 34#8 → (first :: rest).countP isSpace = 0 := by
      intro unquoted
      exact Nat.le_zero.mp (Nat.le_of_not_lt fun some => checked ⟨unquoted, some⟩)
    rw [Classical.not_imp]
    simp only [List.cons_append, List.head?_cons] at other ⊢
    apply and_congr_right
    intro unquoted
    rw [← List.cons_append, List.countP_append, other unquoted, Nat.zero_add, gt_iff_lt, List.countP_pos_iff]
    simp
  constructor
  · intro loaded
    split at loaded
    · cases loaded
    · rename_i unspaced
      have fits := same.mp loaded
      exact ⟨fits, not_not.mp fun bad => unspaced ((spaces fits.nonempty).mpr bad)⟩
  · intro fits
    rw [if_neg fun bad => (spaces fits.1.nonempty).mp bad fits.2]
    exact same.mpr fits.1

theorem trimmed_blank {value gap : CString} (ended : ∀ c, (stringSkipHeadSpace value).getLast? = some c → isSpace c = false)
    (blank : ∀ c ∈ gap, isSpace c = true) :
    stringRemoveEolSpace (stringSkipHeadSpace (value ++ gap)) = stringSkipHeadSpace value := by
  by_cases some : stringSkipHeadSpace value = []
  · have all : ∀ c ∈ value, isSpace c = true := by simpa [stringSkipHeadSpace] using some
    have none : stringSkipHeadSpace (value ++ gap) = [] := by
      apply List.dropWhile_eq_nil_iff.mpr
      intro c member
      rcases List.mem_append.mp member with member | member
      · exact all c member
      · exact blank c member
    rw [none, some]
    rfl
  · rw [stringSkipHeadSpace_append some, stringRemoveEolSpace_blank _ blank, stringRemoveEolSpace_ended ended]

/-- The same checks of a value as it is read, with a comment left behind it. -/
theorem exiniData_commented {enable dtbocfg : Bool} {value gap : CString} (more : CString) {data : ExiniData} {α : Type}
    {f : ExiniData → α} (injective : ∀ left right, f left = f right → left = right)
    (ended : ∀ c, (stringSkipHeadSpace value).getLast? = some c → isSpace c = false)
    (blank : ∀ c ∈ gap, isSpace c = true) (read : exiniData enable (stringSkipHeadSpace value) = some data)
    (checked : ¬ ((stringSkipHeadSpace value).head? ≠ some 34#8 ∧ (stringSkipHeadSpace value).countP isSpace > 0)) :
    let left := gap ++ commentChar dtbocfg :: more
    let trimmed := stringRemoveEolSpace (stringSkipHeadSpace (value ++ left))
    (if trimmed.head? ≠ some 34#8 ∧ trimmed.countP isSpace > 0 then none else (exiniData enable trimmed).map f) =
        some (f data) ↔
      ValueCut (stringSkipHeadSpace value) (stringRemoveEolSpace left) ∧ ((stringSkipHeadSpace value).head? ≠ some 34#8 →
        ∀ c ∈ stringRemoveEolSpace left, isSpace c = false) := by
  dsimp only
  by_cases empty : stringSkipHeadSpace value = []
  · have all : ∀ c ∈ value, isSpace c = true := by simpa [stringSkipHeadSpace] using empty
    have shown : stringSkipHeadSpace (value ++ (gap ++ commentChar dtbocfg :: more)) = commentChar dtbocfg :: more := by
      rw [stringSkipHeadSpace, List.dropWhile_append_of_pos all, List.dropWhile_append_of_pos blank,
        List.dropWhile_cons_of_neg (by simp [isSpace_comment])]
    have trimmed := stringRemoveEolSpace_comment dtbocfg [] more
    rw [List.nil_append, List.nil_append] at trimmed
    have comment : commentChar dtbocfg ∈ commentChar dtbocfg :: stringRemoveEolSpace more := List.mem_cons_self
    have checks := exiniData_checked injective read checked comment
    rw [empty, List.nil_append] at checks
    rw [shown, trimmed, checks, empty]
    exact iff_of_false (fun fits => fits.1.nonempty rfl) fun fits => fits.1.nonempty rfl
  · have comment : commentChar dtbocfg ∈ stringRemoveEolSpace (gap ++ commentChar dtbocfg :: more) := by
      rw [stringRemoveEolSpace_comment]
      simp
    rw [stringSkipHeadSpace_append empty, stringRemoveEolSpace_append ended]
    exact exiniData_checked injective read checked comment

theorem exiniLoadProperty_more {enable dtbocfg : Bool} {st st' : ExiniLoad} {key value left : CString}
    (plain : 61#8 ∉ key) (loaded : exiniLoadProperty (exiniMode enable dtbocfg) st (key ++ 61#8 :: value) = some st')
    (ended : ∀ c, (stringSkipHeadSpace value).getLast? = some c → isSpace c = false)
    (behind : CommentLeft dtbocfg left) :
    exiniLoadProperty (exiniMode enable dtbocfg) st (key ++ 61#8 :: (value ++ left)) = some st' ↔
      PropertyFits (stringSkipHeadSpace value) left := by
  rw [exiniLoadProperty_mode enable dtbocfg st plain] at loaded ⊢
  by_cases equals : 61#8 ∈ value
  · rw [if_pos equals] at loaded
    cases loaded
  · rw [if_neg equals, stringRemoveEolSpace_ended ended] at loaded
    cases last : st.last with
    | none =>
      rw [last] at loaded
      cases loaded
    | some section_ =>
      rw [last, Option.bind_some] at loaded
      rw [Option.bind_some]
      dsimp only at loaded ⊢
      by_cases named : (stringRemoveEolSpace (stringSkipHeadSpace key)).countP isSpace > 0
      · rw [if_pos named] at loaded
        cases loaded
      · rw [if_neg named] at loaded ⊢
        cases behind with
        | spaces gap blank =>
          have none : 61#8 ∉ value ++ left := by
            intro inside
            rcases List.mem_append.mp inside with inside | inside
            · exact equals inside
            · exact absurd (blank _ inside) (by decide)
          rw [if_neg none, trimmed_blank ended blank]
          exact iff_of_true loaded (.inl blank)
        | comment gap more blank =>
          have visible : ¬ ∀ c ∈ gap ++ commentChar dtbocfg :: more, isSpace c = true := by
            intro all
            have space := all (commentChar dtbocfg) (by simp)
            rw [isSpace_comment] at space
            cases space
          rw [PropertyFits, or_iff_right visible]
          by_cases more_ : 61#8 ∈ value ++ (gap ++ commentChar dtbocfg :: more)
          · rw [if_pos more_]
            have inside := (List.mem_append.mp more_).resolve_left equals
            exact iff_of_false nofun fun fits => fits.1 inside
          · rw [if_neg more_]
            split at loaded
            · cases loaded
            · rename_i checked
              obtain ⟨data, read, rfl⟩ := Option.map_eq_some_iff.mp loaded
              rw [and_iff_right fun inside => more_ (List.mem_append_right _ inside)]
              have injective : ∀ left right : ExiniData,
                  ({ st with last := some (exiniAddProperty section_
                    (stringRemoveEolSpace (stringSkipHeadSpace key)) left) } : ExiniLoad) =
                  { st with last := some (exiniAddProperty section_
                    (stringRemoveEolSpace (stringSkipHeadSpace key)) right) } → left = right := by
                intro left right same
                exact exiniAddProperty_inj.mp (Option.some.inj (ExiniLoad.mk.inj same).2)
              exact exiniData_commented more injective ended blank read checked

/-- What `exini_do_load` does with a line, its comment removed. -/
def exiniEntry (ini : Exini) (st : ExiniLoad) (s : CString) : Option ExiniLoad :=
  match s with
  | [] => some st
  | c :: _ =>
    if c = 59#8 then some st
    else if c = 35#8 ∧ exiniHasQuirks ini EXINI_QUIRK_DTBOCFG then some st
    else if exiniHasQuirks ini EXINI_QUIRK_DTBOCFG ∧ s.count 61#8 = 0 then some (st.addSection s)
    else if exiniHasQuirks ini EXINI_QUIRK_ANONYMOUS_SECTION ∧ c = 123#8 then exiniHandleAnonymousSection ini st s
    else if c = 91#8 ∧ s.getLast? = some 93#8 then some (st.addSection (s.drop 1).dropLast)
    else exiniLoadProperty ini st s

theorem exiniLine_entry (ini : Exini) (st : ExiniLoad) (linebuf : List Byte) :
    exiniLine ini st linebuf = exiniEntry ini st (removeEolComment ini (stringSkipHeadSpace (cString linebuf))) := rfl

/-- A line of this text is passed over. -/
def ExiniSkipped (dtbocfg : Bool) (text : CString) : Prop :=
  text.head? = none ∨ text.head? = some 59#8 ∨ dtbocfg = true ∧ text.head? = some 35#8

theorem exiniMode_quirks (enable dtbocfg : Bool) :
    exiniHasQuirks (exiniMode enable dtbocfg) EXINI_QUIRK_DTBOCFG = dtbocfg ∧
      exiniHasQuirks (exiniMode enable dtbocfg) EXINI_QUIRK_ANONYMOUS_SECTION = false := by
  cases enable <;> cases dtbocfg <;> decide

theorem exiniEntry_skipped {enable dtbocfg : Bool} {text : CString} (skipped : ExiniSkipped dtbocfg text) (st : ExiniLoad) :
    exiniEntry (exiniMode enable dtbocfg) st text = some st := by
  cases text with
  | nil => rfl
  | cons c rest =>
    simp only [ExiniSkipped, List.head?_cons, reduceCtorEq, Option.some.injEq, false_or] at skipped
    rw [exiniEntry, (exiniMode_quirks enable dtbocfg).1]
    rcases skipped with rfl | ⟨rfl, rfl⟩
    · rw [if_pos rfl]
    · rw [if_neg (by decide), if_pos ⟨rfl, rfl⟩]

theorem exiniEntry_mode {enable dtbocfg : Bool} {text : CString} (read : ¬ ExiniSkipped dtbocfg text) (st : ExiniLoad) :
    exiniEntry (exiniMode enable dtbocfg) st text =
      if dtbocfg = true ∧ 61#8 ∉ text then some (st.addSection text)
      else if text.head? = some 91#8 ∧ text.getLast? = some 93#8 then some (st.addSection (text.drop 1).dropLast)
      else exiniLoadProperty (exiniMode enable dtbocfg) st text := by
  cases text with
  | nil => exact absurd (.inl rfl) read
  | cons c rest =>
    simp only [ExiniSkipped, List.head?_cons, reduceCtorEq, Option.some.injEq, false_or, not_or, not_and] at read
    rw [exiniEntry, (exiniMode_quirks enable dtbocfg).1, (exiniMode_quirks enable dtbocfg).2, if_neg read.1,
      if_neg fun both => read.2 both.2 both.1]
    simp only [List.count_eq_zero, Bool.false_eq_true, false_and, if_false, List.head?_cons, Option.some.injEq]

theorem exiniLoadProperty_split {ini : Exini} {st st' : ExiniLoad} {text : CString}
    (loaded : exiniLoadProperty ini st text = some st') : ∃ key value, text = key ++ 61#8 :: value ∧ 61#8 ∉ key := by
  have inside : 61#8 ∈ text := by
    rw [exiniLoadProperty] at loaded
    split at loaded
    · cases loaded
    · rename_i one
      rw [not_not] at one
      exact List.count_pos_iff.mp (by omega)
  obtain ⟨key, value, shape, plain⟩ := List.eq_append_cons_of_mem inside
  exact ⟨key, value, shape, plain⟩

theorem exiniLoadProperty_added {enable dtbocfg : Bool} {st st' : ExiniLoad} {text : CString}
    (loaded : exiniLoadProperty (exiniMode enable dtbocfg) st text = some st') :
    ∃ section_ name data, st.last = some section_ ∧
      { st with last := some (exiniAddProperty section_ name data) } = st' := by
  obtain ⟨key, value, rfl, plain⟩ := exiniLoadProperty_split loaded
  rw [exiniLoadProperty_mode enable dtbocfg st plain] at loaded
  split at loaded
  · cases loaded
  · obtain ⟨section_, last, given⟩ := Option.bind_eq_some_iff.mp loaded
    dsimp only at given
    split at given
    · cases given
    · split at given
      · cases given
      · obtain ⟨data, _, same⟩ := Option.map_eq_some_iff.mp given
        exact ⟨section_, _, data, last, same⟩

theorem exiniLoadProperty_sections {enable dtbocfg : Bool} {st st' : ExiniLoad} {text : CString}
    (loaded : exiniLoadProperty (exiniMode enable dtbocfg) st text = some st') :
    st'.sections.length = st.sections.length := by
  obtain ⟨section_, name, data, last, rfl⟩ := exiniLoadProperty_added loaded
  simp [ExiniLoad.sections, last]

theorem addSection_sections (st : ExiniLoad) (name : CString) :
    (st.addSection name).sections.length = st.sections.length + 1 := by
  simp [ExiniLoad.addSection, ExiniLoad.sections, Nat.add_assoc]

theorem addSection_inj {st : ExiniLoad} {name other : CString} :
    some (st.addSection name) = some (st.addSection other) ↔ name.take 127 = other.take 127 := by
  simp [ExiniLoad.addSection]

theorem take_shift {n : Nat} {a : Byte} {s : List Byte} (long : n ≤ s.length) (same : s.take n = (a :: s).take n) :
    s.take n = List.replicate n a := by
  induction n generalizing s with
  | zero => simp
  | succ n ih =>
    cases s with
    | nil => exact absurd long (by simp)
    | cons b s =>
      rw [List.take_succ_cons, List.take_succ_cons, List.cons.injEq] at same
      obtain ⟨rfl, tail⟩ := same
      rw [List.take_succ_cons, ih (Nat.le_of_succ_le_succ long) tail, List.replicate_succ]

/-- What is left behind a text does not change what the text gives. -/
def EntryFits (dtbocfg : Bool) (text left : CString) : Prop :=
  if dtbocfg = true ∧ 61#8 ∉ text then
    left = [] ∨ 127 ≤ text.length ∧
      (61#8 ∉ left ∨ text.take 128 = List.replicate 128 91#8 ∧ left.getLast? = some 93#8)
  else if text.head? = some 91#8 ∧ text.getLast? = some 93#8 then
    left = [] ∨ 129 ≤ text.length ∧ left.getLast? = some 93#8
  else
    ¬ (text.head? = some 91#8 ∧ left.getLast? = some 93#8) ∧
      PropertyFits (stringSkipHeadSpace ((text.dropWhile (· ≠ 61#8)).drop 1)) left

theorem CommentLeft.head {dtbocfg : Bool} {c : Byte} {left : CString} (behind : CommentLeft dtbocfg (c :: left)) :
    isSpace c = true ∨ c = commentChar dtbocfg := by
  generalize whole : c :: left = all at behind
  cases behind with
  | spaces _ blank =>
    subst whole
    exact .inl (blank c List.mem_cons_self)
  | comment gap more blank =>
    cases gap with
    | nil => exact .inr (List.cons.inj whole).1
    | cons d gap =>
      obtain rfl := (List.cons.inj whole).1
      exact .inl (blank c List.mem_cons_self)

/-- A name of brackets alone is the same in front of a bracket and behind one. -/
theorem brackets_more {dtbocfg : Bool} {rest left : CString} (behind : CommentLeft dtbocfg left)
    (equals : 61#8 ∈ left) (ends : left.getLast? = some 93#8) :
    ((91#8 :: rest ++ left).drop 1).dropLast.take 127 = (91#8 :: rest).take 127 ↔
      127 ≤ (91#8 :: rest).length ∧ (91#8 :: rest).take 128 = List.replicate 128 91#8 := by
  obtain ⟨front, rfl⟩ := List.getLast?_eq_some_iff.mp ends
  have inside : 61#8 ∈ front := (List.mem_append.mp equals).resolve_right (by decide)
  obtain ⟨c, front, rfl⟩ := List.exists_cons_of_ne_nil (List.ne_nil_of_mem inside)
  have first : c ≠ 61#8 ∧ c ≠ 91#8 := by
    rcases behind.head with space | rfl
    · constructor <;> rintro rfl <;> exact absurd space (by decide)
    · cases dtbocfg <;> decide
  have more : 0 < front.length := by
    have inside := (List.mem_cons.mp inside).resolve_left first.1.symm
    exact List.length_pos_of_mem inside
  rw [dropLast_cons_append (by simp), List.dropLast_concat]
  constructor
  · intro same
    have lengths := congrArg List.length same
    simp only [List.length_cons, List.length_append, List.length_take] at lengths
    have long : 127 ≤ (91#8 :: rest).length := by
      rw [List.length_cons]
      omega
    have shifted : (rest ++ c :: front).take 127 = (91#8 :: (rest ++ c :: front)).take 127 := by
      rw [same, ← List.cons_append, List.take_append_of_le_length long]
    have all := take_shift (by simp only [List.length_append, List.length_cons] at long ⊢; omega) shifted
    have longer : 127 ≤ rest.length := by
      by_contra short
      have exact_ : rest.length = 126 := by
        rw [List.length_cons] at long
        omega
      have member : c ∈ (rest ++ c :: front).take 127 := by
        rw [List.take_append, exact_]
        simp
      rw [all] at member
      exact first.2 (List.eq_of_mem_replicate member)
    rw [List.take_append_of_le_length longer] at all
    exact ⟨long, by rw [List.take_succ_cons, all, ← List.replicate_succ]⟩
  · intro ⟨_, brackets⟩
    have lengths := congrArg List.length brackets
    rw [List.length_take, List.length_replicate, List.length_cons] at lengths
    have all : rest.take 127 = List.replicate 127 91#8 := by
      rw [List.take_succ_cons, List.replicate_succ] at brackets
      exact (List.cons.inj brackets).2
    have shorter := congrArg (List.take 127) brackets
    rw [List.take_take, List.take_replicate] at shorter
    rw [List.take_append_of_le_length (by omega), all]
    exact shorter.symm

section Entries

variable {enable dtbocfg : Bool} {st st' : ExiniLoad} {text left : CString}

theorem skipped_append (read : ¬ ExiniSkipped dtbocfg text) : ¬ ExiniSkipped dtbocfg (text ++ left) := by
  cases text with
  | nil => exact absurd (.inl rfl) read
  | cons c rest => exact read

theorem head?_append (read : ¬ ExiniSkipped dtbocfg text) : (text ++ left).head? = text.head? := by
  cases text with
  | nil => exact absurd (.inl rfl) read
  | cons c rest => rfl

theorem getLast?_append (some : left ≠ []) : (text ++ left).getLast? = left.getLast? :=
  List.getLast?_append_of_ne_nil _ some

theorem not_property (loaded : some (st.addSection text) = some st') (other : CString) :
    exiniLoadProperty (exiniMode enable dtbocfg) st other ≠ some st' := by
  intro given
  have sections := exiniLoadProperty_sections given
  rw [← Option.some.inj loaded, addSection_sections] at sections
  omega

theorem dtbocfgSection_more (read : ¬ ExiniSkipped true text) (plain : 61#8 ∉ text) (some : left ≠ [])
    (behind : CommentLeft true left) :
    exiniEntry (exiniMode enable true) st (text ++ left) = Option.some (st.addSection text) ↔
      127 ≤ text.length ∧ (61#8 ∉ left ∨ text.take 128 = List.replicate 128 91#8 ∧ left.getLast? = Option.some 93#8) := by
  rw [exiniEntry_mode (skipped_append read), head?_append read, getLast?_append some]
  by_cases equals : 61#8 ∈ left
  · rw [if_neg fun both => both.2 (List.mem_append_right _ equals)]
    by_cases bracket : text.head? = Option.some 91#8 ∧ left.getLast? = Option.some 93#8
    · obtain ⟨rest, rfl⟩ : ∃ rest, text = 91#8 :: rest := List.head?_eq_some_iff.mp bracket.1
      rw [if_pos bracket, addSection_inj, brackets_more behind equals bracket.2]
      simp [equals, bracket.2]
    · rw [if_neg bracket]
      refine iff_of_false (not_property rfl _) fun fits => bracket ⟨?_, ?_⟩
      · have brackets := (fits.2.resolve_left (not_not.mpr equals)).1
        cases text with
        | nil => exact absurd (.inl rfl) read
        | cons c rest =>
          rw [List.take_succ_cons, List.replicate_succ] at brackets
          rw [List.head?_cons, (List.cons.inj brackets).1]
      · exact (fits.2.resolve_left (not_not.mpr equals)).2
  · have none : 61#8 ∉ text ++ left := by
      intro inside
      exact (List.mem_append.mp inside).elim plain equals
    rw [if_pos ⟨rfl, none⟩, addSection_inj, take_append_eq some]
    simp [equals]

theorem standSection_more (read : ¬ ExiniSkipped dtbocfg text) (equals : ¬ (dtbocfg = true ∧ 61#8 ∉ text))
    (brackets : text.head? = Option.some 91#8 ∧ text.getLast? = Option.some 93#8) (some : left ≠ []) :
    exiniEntry (exiniMode enable dtbocfg) st (text ++ left) = Option.some (st.addSection (text.drop 1).dropLast) ↔
      129 ≤ text.length ∧ left.getLast? = Option.some 93#8 := by
  have none : ¬ (dtbocfg = true ∧ 61#8 ∉ text ++ left) := fun both =>
    equals ⟨both.1, fun inside => both.2 (List.mem_append_left _ inside)⟩
  obtain ⟨rest, rfl⟩ := List.head?_eq_some_iff.mp brackets.1
  rw [exiniEntry_mode (skipped_append read), if_neg none, getLast?_append some, List.cons_append, List.head?_cons]
  by_cases ends : left.getLast? = Option.some 93#8
  · cases rest using List.reverseRecOn with
    | nil => exact absurd brackets.2 (by decide)
    | append_singleton inner final =>
      have closing := brackets.2
      rw [← List.cons_append, List.getLast?_concat] at closing
      obtain rfl := Option.some.inj closing
      have cut : (inner ++ 93#8 :: left.dropLast).take 127 = inner.take 127 ↔ 127 ≤ inner.length :=
        take_append_eq (by simp)
      have name : ((91#8 :: (inner ++ [93#8])).drop 1).dropLast = inner := List.dropLast_concat
      rw [if_pos ⟨rfl, ends⟩, addSection_inj, ← List.cons_append, dropLast_cons_append some, List.append_assoc,
        List.singleton_append, name, cut, and_iff_left ends]
      simp only [List.length_cons, List.length_append, List.length_nil]
      omega
  · rw [if_neg fun both => ends both.2]
    exact iff_of_false (not_property rfl _) fun fits => ends fits.2

theorem property_more (read : ¬ ExiniSkipped dtbocfg text) (ended : ∀ c, text.getLast? = some c → isSpace c = false)
    (equals : ¬ (dtbocfg = true ∧ 61#8 ∉ text)) (brackets : ¬ (text.head? = some 91#8 ∧ text.getLast? = some 93#8))
    (loaded : exiniLoadProperty (exiniMode enable dtbocfg) st text = some st') (behind : CommentLeft dtbocfg left) :
    exiniEntry (exiniMode enable dtbocfg) st (text ++ left) = some st' ↔
      ¬ (text.head? = some 91#8 ∧ left.getLast? = some 93#8) ∧
        PropertyFits (stringSkipHeadSpace ((text.dropWhile (· ≠ 61#8)).drop 1)) left := by
  by_cases empty : left = []
  · subst empty
    rw [List.append_nil, exiniEntry_mode read, if_neg equals, if_neg brackets]
    exact iff_of_true loaded ⟨by simp, .inl (by simp)⟩
  · have none : ¬ (dtbocfg = true ∧ 61#8 ∉ text ++ left) := fun both =>
      equals ⟨both.1, fun inside => both.2 (List.mem_append_left _ inside)⟩
    rw [exiniEntry_mode (skipped_append read), if_neg none, head?_append read, getLast?_append empty]
    by_cases bracket : text.head? = some 91#8 ∧ left.getLast? = some 93#8
    · rw [if_pos bracket]
      exact iff_of_false (fun same => not_property same _ loaded) fun fits => fits.1 bracket
    · obtain ⟨key, value, rfl, plain⟩ := exiniLoadProperty_split loaded
      have behind_ : ((key ++ 61#8 :: value).dropWhile (· ≠ 61#8)).drop 1 = value := by
        rw [dropWhile_other plain]
        rfl
      have ended_ : ∀ c, (stringSkipHeadSpace value).getLast? = some c → isSpace c = false := by
        intro c last
        have some : stringSkipHeadSpace value ≠ [] := by
          intro none
          rw [none] at last
          cases last
        apply ended
        obtain ⟨front, shape⟩ := List.dropWhile_suffix (l := value) isSpace
        have whole : key ++ 61#8 :: value = (key ++ 61#8 :: front) ++ stringSkipHeadSpace value := by
          rw [List.append_assoc, List.cons_append, stringSkipHeadSpace, shape]
        rw [whole, List.getLast?_append_of_ne_nil _ some]
        exact last
      rw [if_neg bracket, behind_, List.append_assoc, List.cons_append,
        exiniLoadProperty_more plain loaded ended_ behind, and_iff_right bracket]

/-- What is left behind a text changes what the loader takes from it unless it fits. -/
theorem exiniEntry_more (read : ¬ ExiniSkipped dtbocfg text) (ended : ∀ c, text.getLast? = some c → isSpace c = false)
    (loaded : exiniEntry (exiniMode enable dtbocfg) st text = some st') (behind : CommentLeft dtbocfg left) :
    exiniEntry (exiniMode enable dtbocfg) st (text ++ left) = some st' ↔ EntryFits dtbocfg text left := by
  have given := loaded
  rw [exiniEntry_mode read] at given
  rw [EntryFits]
  by_cases plain : dtbocfg = true ∧ 61#8 ∉ text
  · obtain ⟨rfl, plain⟩ := plain
    rw [if_pos ⟨rfl, plain⟩] at given ⊢
    by_cases empty : left = []
    · rw [empty, List.append_nil]
      exact iff_of_true loaded (.inl rfl)
    · rw [← given, dtbocfgSection_more read plain empty behind, or_iff_right empty]
  · rw [if_neg plain] at given ⊢
    by_cases brackets : text.head? = some 91#8 ∧ text.getLast? = some 93#8
    · rw [if_pos brackets] at given ⊢
      by_cases empty : left = []
      · rw [empty, List.append_nil]
        exact iff_of_true loaded (.inl rfl)
      · rw [← given, standSection_more read plain brackets empty, or_iff_right empty]
    · rw [if_neg brackets] at given ⊢
      exact property_more read ended plain brackets given behind

end Entries

/-- What `remove_eol_comment` leaves behind a text without a comment of its own. -/
def exiniLeft (dtbocfg : Bool) (text behind : CString) : CString :=
  if commentChar dtbocfg ∈ behind ∧ 34#8 ∉ text.drop 1 ++ behind then
    ((behind.reverse.dropWhile (· ≠ commentChar dtbocfg)).drop 1).reverse
  else behind

theorem removeEolComment_text {enable dtbocfg : Bool} {text : CString} (visible : text ≠ [])
    (ended : ∀ c, text.getLast? = some c → isSpace c = false)
    (whole : commentChar dtbocfg ∉ text ∨ 34#8 ∈ text.drop 1) (more : CString) :
    removeEolComment (exiniMode enable dtbocfg) (text ++ more) =
      text ++ exiniLeft dtbocfg text (stringRemoveEolSpace more) := by
  have char : (if exiniHasQuirks (exiniMode enable dtbocfg) EXINI_QUIRK_DTBOCFG = true then 35 else 59 : Byte) =
      commentChar dtbocfg := by
    rw [(exiniMode_quirks enable dtbocfg).1, commentChar]
  have behind : (text ++ stringRemoveEolSpace more).drop 1 = text.drop 1 ++ stringRemoveEolSpace more := by
    cases text with
    | nil => exact absurd rfl visible
    | cons c rest => rfl
  rw [removeEolComment]
  simp only [char]
  rw [stringRemoveEolSpace_append ended, behind, exiniLeft]
  by_cases cut : commentChar dtbocfg ∈ stringRemoveEolSpace more ∧ 34#8 ∉ text.drop 1 ++ stringRemoveEolSpace more
  · have some : (stringRemoveEolSpace more).reverse.dropWhile (· ≠ commentChar dtbocfg) ≠ [] := by
      intro none
      have all := List.dropWhile_eq_nil_iff.mp none _ (List.mem_reverse.mpr cut.1)
      simp at all
    rw [if_pos cut, if_pos ⟨List.mem_append_right _ cut.1, cut.2⟩, List.reverse_append, List.dropWhile_append,
      if_neg (by simpa using some), List.drop_append_of_le_length (List.length_pos_iff.mpr some), List.reverse_append,
      List.reverse_reverse]
  · rw [if_neg cut, if_neg]
    intro both
    rcases List.mem_append.mp both.1 with inside | inside
    · exact both.2 (List.mem_append_left _ (whole.resolve_left (not_not.mpr inside)))
    · exact cut ⟨inside, both.2⟩

theorem CommentLeft.left {dtbocfg : Bool} {behind : CString} (shape : CommentLeft dtbocfg behind) (text : CString) :
    CommentLeft dtbocfg (exiniLeft dtbocfg text behind) := by
  rw [exiniLeft]
  split
  · cases shape with
    | spaces _ blank =>
      rename_i cut
      have space := blank _ cut.1
      rw [isSpace_comment] at space
      cases space
    | comment gap more blank =>
      rw [List.reverse_append, List.reverse_cons, List.append_assoc, List.singleton_append, List.dropWhile_append]
      split
      · rw [List.dropWhile_cons_of_neg (by simp), List.drop_one, List.tail_cons, List.reverse_reverse]
        exact .spaces gap blank
      · rename_i some
        have positive : 1 ≤ (more.reverse.dropWhile (· ≠ commentChar dtbocfg)).length :=
          List.length_pos_iff.mpr (by simpa using some)
        rw [List.drop_append_of_le_length positive, List.reverse_append, List.reverse_cons, List.reverse_reverse,
          List.append_assoc, List.singleton_append]
        exact .comment gap _ blank
  · exact shape

theorem CommentLeft.trimmed {dtbocfg : Bool} {behind : CString} (shape : CommentLeft dtbocfg behind) :
    CommentLeft dtbocfg (stringRemoveEolSpace behind) := by
  cases shape with
  | spaces _ blank =>
    have none : stringRemoveEolSpace behind = [] := List.rdropWhile_eq_nil_iff.mpr blank
    rw [none]
    exact .spaces [] (by simp)
  | comment gap more blank =>
    rw [stringRemoveEolSpace_comment]
    exact .comment gap _ blank

theorem CommentLeft.take {dtbocfg : Bool} {behind : CString} (shape : CommentLeft dtbocfg behind) (n : Nat) :
    CommentLeft dtbocfg (behind.take n) := by
  cases shape with
  | spaces _ blank => exact .spaces _ fun c member => blank c (List.mem_of_mem_take member)
  | comment gap more blank =>
    rw [List.take_append]
    cases n - gap.length with
    | zero =>
      rw [List.take_zero, List.append_nil]
      exact .spaces _ fun c member => blank c (List.mem_of_mem_take member)
    | succ n =>
      rw [List.take_succ_cons]
      exact .comment _ _ fun c member => blank c (List.mem_of_mem_take member)

end ImgEditor
