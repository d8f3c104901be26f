import ImgEditor.Core.ExiniComment

namespace ImgEditor

open Storage CText

theorem fgets_append {front : List Byte} (ended : front.getLast? = some 10#8) (room : Nat) (rest : List Byte) :
    fgets room (front ++ rest) = ((fgets room front).1, (fgets room front).2 ++ rest) ∧
      ((fgets room front).2 = [] ∨ (fgets room front).2.getLast? = some 10#8) := by
  induction room generalizing front with
  | zero => exact ⟨rfl, .inr ended⟩
  | succ room ih =>
    cases front with
    | nil => cases ended
    | cons c front =>
      rw [List.cons_append, fgets, fgets]
      by_cases newline : c = 10#8
      · rw [if_pos newline, if_pos newline]
        cases front with
        | nil => exact ⟨rfl, .inl rfl⟩
        | cons d front => exact ⟨rfl, .inr ended⟩
      · rw [if_neg newline, if_neg newline]
        cases front with
        | nil => exact absurd (Option.some.inj ended) newline
        | cons d front =>
          obtain ⟨line, more⟩ := @ih (d :: front) ended
          rw [line]
          exact ⟨rfl, more⟩

theorem fgetsLines_append {front : List Byte} (ended : front = [] ∨ front.getLast? = some 10#8) (room : Nat)
    (rest : List Byte) : fgetsLines room (front ++ rest) = fgetsLines room front ++ fgetsLines room rest := by
  induction front using (measure List.length).wf.induction with
  | _ front ih =>
    cases front with
    | nil => simp [fgetsLines]
    | cons c front =>
      obtain ⟨line, more⟩ := fgets_append (ended.resolve_left (List.cons_ne_nil _ _)) (room + 1) rest
      rw [List.cons_append] at line
      rw [List.cons_append, fgetsLines, fgetsLines, line, List.cons_append,
        ih _ (fgets_shorter room c front) more]

theorem fgets_take (room : Nat) {line : List Byte} (plain : 10#8 ∉ line) :
    fgets room (line ++ [10#8]) = ((line ++ [10#8]).take room, (line ++ [10#8]).drop room) := by
  induction room generalizing line with
  | zero => rfl
  | succ room ih =>
    cases line with
    | nil => simp [fgets]
    | cons c line =>
      have other : c ≠ 10#8 := fun same => plain (same ▸ List.mem_cons_self)
      rw [List.cons_append, fgets, if_neg other, ih fun member => plain (List.mem_cons_of_mem _ member)]
      rfl

theorem fgetsLines_take (room : Nat) {line : List Byte} (plain : 10#8 ∉ line) :
    fgetsLines room (line ++ [10#8]) =
      (line ++ [10#8]).take (room + 1) :: fgetsLines room ((line ++ [10#8]).drop (room + 1)) := by
  obtain ⟨c, stream, shape⟩ : ∃ c stream, line ++ [10#8] = c :: stream := by
    cases line <;> exact ⟨_, _, rfl⟩
  have first := fgets_take (room + 1) plain
  rw [shape] at first
  rw [shape, fgetsLines, first]

/-- The sections and properties of a file that is being loaded. -/
def ExiniLoad.weight (sections : List ExiniSection) : Nat := (sections.map fun s => s.properties.length + 1).sum

section Pieces

variable {enable dtbocfg : Bool} {st st' : ExiniLoad}

theorem exiniEntry_weight {text : CString} (read : ¬ ExiniSkipped dtbocfg text)
    (loaded : exiniEntry (exiniMode enable dtbocfg) st text = some st') :
    (∃ section_, st'.last = some section_) ∧
      ExiniLoad.weight st'.sections = ExiniLoad.weight st.sections + 1 := by
  rw [exiniEntry_mode read] at loaded
  have sections (name : CString) : ExiniLoad.weight (st.addSection name).sections = ExiniLoad.weight st.sections + 1 := by
    simp [ExiniLoad.weight, ExiniLoad.addSection, ExiniLoad.sections, Nat.add_assoc]
  split at loaded
  · rw [← Option.some.inj loaded]
    exact ⟨⟨_, rfl⟩, sections _⟩
  · split at loaded
    · rw [← Option.some.inj loaded]
      exact ⟨⟨_, rfl⟩, sections _⟩
    · obtain ⟨section_, name, data, last, rfl⟩ := exiniLoadProperty_added loaded
      constructor
      · exact ⟨_, rfl⟩
      · simp [ExiniLoad.weight, ExiniLoad.sections, last, exiniAddProperty]
        omega

theorem skipped_comment (s : CString) : ExiniSkipped dtbocfg (commentChar dtbocfg :: s) := by
  cases dtbocfg
  · exact .inr (.inl rfl)
  · exact .inr (.inr ⟨rfl, rfl⟩)

theorem removeEolComment_skipped {s : CString} (visible : ∀ c, s.head? = some c → isSpace c = false) :
    ExiniSkipped dtbocfg (removeEolComment (exiniMode enable dtbocfg) s) ↔ ExiniSkipped dtbocfg s := by
  have start := removeEolComment_prefix (exiniMode enable dtbocfg) s
  cases s with
  | nil => rw [List.prefix_nil.mp start]
  | cons c rest =>
    by_cases comment : c = commentChar dtbocfg
    · subst comment
      cases cut : removeEolComment (exiniMode enable dtbocfg) (commentChar dtbocfg :: rest) with
      | nil => exact iff_of_true (.inl rfl) (skipped_comment rest)
      | cons d left =>
        rw [cut] at start
        rw [(List.cons_prefix_cons.mp start).1]
        exact iff_of_true (skipped_comment left) (skipped_comment rest)
    · have kept : removeEolComment (exiniMode enable dtbocfg) ([c] ++ rest) =
          [c] ++ exiniLeft dtbocfg [c] (stringRemoveEolSpace rest) :=
        removeEolComment_text (by simp) (fun d last => visible d (by simpa using last)) (.inl (by simpa using Ne.symm comment)) rest
      rw [List.singleton_append] at kept
      rw [kept]
      exact Iff.rfl

theorem skip_visible (s : CString) : ∀ c, (stringSkipHeadSpace s).head? = some c → isSpace c = false := by
  intro c first
  have found := List.head?_dropWhile_not isSpace s
  rw [stringSkipHeadSpace] at first
  rw [first] at found
  simpa using found

def ExiniBlank (dtbocfg : Bool) (linebuf : List Byte) : Prop :=
  ExiniSkipped dtbocfg (stringSkipHeadSpace (cString linebuf))

theorem exiniLine_blank {linebuf : List Byte} (blank : ExiniBlank dtbocfg linebuf) (st : ExiniLoad) :
    exiniLine (exiniMode enable dtbocfg) st linebuf = some st := by
  rw [exiniLine_entry]
  exact exiniEntry_skipped ((removeEolComment_skipped (skip_visible _)).mpr blank) st

theorem exiniLine_weight {linebuf : List Byte} (read : ¬ ExiniBlank dtbocfg linebuf)
    (loaded : exiniLine (exiniMode enable dtbocfg) st linebuf = some st') :
    ExiniLoad.weight st'.sections = ExiniLoad.weight st.sections + 1 := by
  rw [exiniLine_entry] at loaded
  exact (exiniEntry_weight (fun skipped => read ((removeEolComment_skipped (skip_visible _)).mp skipped)) loaded).2

theorem exiniLines_blank {pieces : List (List Byte)} (blank : ∀ piece ∈ pieces, ExiniBlank dtbocfg piece)
    (st : ExiniLoad) : pieces.foldlM (exiniLine (exiniMode enable dtbocfg)) st = some st := by
  induction pieces with
  | nil => rfl
  | cons piece pieces ih =>
    rw [List.foldlM_cons, exiniLine_blank (blank piece List.mem_cons_self)]
    exact ih fun other member => blank other (List.mem_cons_of_mem _ member)

/-- Every line that is not passed over adds a section or a property. -/
theorem exiniLines_weight {pieces : List (List Byte)}
    (loaded : pieces.foldlM (exiniLine (exiniMode enable dtbocfg)) st = some st') :
    ExiniLoad.weight st.sections ≤ ExiniLoad.weight st'.sections ∧
      (ExiniLoad.weight st'.sections = ExiniLoad.weight st.sections → ∀ piece ∈ pieces, ExiniBlank dtbocfg piece) := by
  induction pieces generalizing st with
  | nil =>
    rw [Option.some.inj loaded]
    exact ⟨le_rfl, by simp⟩
  | cons piece pieces ih =>
    rw [List.foldlM_cons] at loaded
    obtain ⟨next, first, more⟩ := Option.bind_eq_some_iff.mp loaded
    obtain ⟨grows, blank⟩ := ih more
    by_cases here : ExiniBlank dtbocfg piece
    · rw [exiniLine_blank here] at first
      obtain rfl := Option.some.inj first
      refine ⟨grows, fun same other member => ?_⟩
      rcases List.mem_cons.mp member with rfl | member
      · exact here
      · exact blank same other member
    · have weight := exiniLine_weight here first
      exact ⟨by omega, by omega⟩

end Pieces

/-- The text of a line, without the spaces around it. -/
def exiniText (line : List Byte) : CString := stringRemoveEolSpace (stringSkipHeadSpace line)

/-- A line of one piece that holds a section or a property and no comment of its own. -/
structure ExiniLineValid (dtbocfg : Bool) (line : List Byte) : Prop where
  short : line.length ≤ 1021
  plain : ∀ c ∈ line, c ≠ 10#8 ∧ c ≠ 0#8
  read : ¬ ExiniSkipped dtbocfg (exiniText line)
  whole : commentChar dtbocfg ∉ exiniText line ∨ 34#8 ∈ (exiniText line).drop 1

/-- What is left of the comment behind the line's text does not change what the text gives, and no later piece of
a long comment is read as a line of its own. -/
def ExiniCommentFits (dtbocfg : Bool) (line comment : List Byte) : Prop :=
  let room := 1022 - line.length
  let behind := (stringSkipHeadSpace line).rtakeWhile isSpace ++ (comment ++ [10#8]).take room
  EntryFits dtbocfg (exiniText line) (exiniLeft dtbocfg (exiniText line) (stringRemoveEolSpace behind)) ∧
    ∀ piece ∈ fgetsLines 1021 ((comment ++ [10#8]).drop room), ExiniBlank dtbocfg piece

section Comments

variable {enable dtbocfg : Bool} {line comment : List Byte}

theorem exiniText_ended (line : List Byte) : ∀ c, (exiniText line).getLast? = some c → isSpace c = false := by
  intro c last
  have some : exiniText line ≠ [] := by
    intro none
    rw [none] at last
    cases last
  have kept := List.rdropWhile_last_not isSpace (stringSkipHeadSpace line) some
  rw [List.getLast?_eq_some_getLast some] at last
  rw [← Option.some.inj last]
  exact Bool.eq_false_iff.mpr kept

/-- The first piece of a valid line with anything behind it. -/
theorem exiniLine_text (valid : ExiniLineValid dtbocfg line) {more : List Byte} (plain : 0#8 ∉ more) (st : ExiniLoad) :
    exiniLine (exiniMode enable dtbocfg) st (line ++ more) =
      exiniEntry (exiniMode enable dtbocfg) st (exiniText line ++ exiniLeft dtbocfg (exiniText line)
        (stringRemoveEolSpace ((stringSkipHeadSpace line).rtakeWhile isSpace ++ more))) := by
  have visible : exiniText line ≠ [] := by
    intro none
    exact valid.read (.inl (by rw [none]; rfl))
  have some : stringSkipHeadSpace line ≠ [] := by
    intro none
    exact visible (by rw [exiniText, none]; rfl)
  have parts : stringSkipHeadSpace line = exiniText line ++ (stringSkipHeadSpace line).rtakeWhile isSpace :=
    (List.rdropWhile_append_rtakeWhile ..).symm
  have text : cString (line ++ more) = line ++ more := by
    apply cString_plain
    intro zero
    rcases List.mem_append.mp zero with zero | zero
    · exact (valid.plain _ zero).2 rfl
    · exact plain zero
  rw [exiniLine_entry, text, stringSkipHeadSpace_append some]
  nth_rewrite 1 [parts]
  rw [List.append_assoc, removeEolComment_text visible (exiniText_ended line) valid.whole]

theorem exiniLine_valid (valid : ExiniLineValid dtbocfg line) (st : ExiniLoad) :
    exiniLine (exiniMode enable dtbocfg) st (line ++ [10#8]) =
      exiniEntry (exiniMode enable dtbocfg) st (exiniText line) := by
  have nothing : stringRemoveEolSpace ((stringSkipHeadSpace line).rtakeWhile isSpace ++ [10#8]) = [] := by
    apply List.rdropWhile_eq_nil_iff.mpr
    intro c member
    rcases List.mem_append.mp member with member | member
    · exact List.mem_rtakeWhile_imp member
    · rw [List.mem_singleton.mp member]
      decide
  have left : exiniLeft dtbocfg (exiniText line) [] = [] := by simp [exiniLeft]
  rw [exiniLine_text valid (by decide), nothing, left, List.append_nil]

theorem commentLeft_behind {gap text : List Byte} (blank : ∀ c ∈ gap, isSpace c = true) (room : Nat) :
    CommentLeft dtbocfg ((stringSkipHeadSpace line).rtakeWhile isSpace ++
      (gap ++ commentChar dtbocfg :: text ++ [10#8]).take room) := by
  have shape : CommentLeft dtbocfg ((gap ++ commentChar dtbocfg :: text ++ [10#8]).take room) := by
    rw [List.append_assoc, List.cons_append]
    exact (CommentLeft.comment gap _ blank).take room
  generalize (gap ++ commentChar dtbocfg :: text ++ [10#8]).take room = behind at shape
  have trailing : ∀ c ∈ (stringSkipHeadSpace line).rtakeWhile isSpace, isSpace c = true :=
    fun c member => List.mem_rtakeWhile_imp member
  cases shape with
  | spaces _ blank =>
    refine .spaces _ fun c member => ?_
    rcases List.mem_append.mp member with member | member
    · exact trailing c member
    · exact blank c member
  | comment gap more blank =>
    rw [← List.append_assoc]
    refine .comment _ _ fun c member => ?_
    rcases List.mem_append.mp member with member | member
    · exact trailing c member
    · exact blank c member

/-- A file whose last lines are `text`: they are loaded from a state that the lines before have left. -/
theorem exiniLoad_append {before : List Byte} (ended : before = [] ∨ before.getLast? = some 10#8) :
    ∃ start : Option ExiniLoad, ∀ text : List Byte, exiniLoad (exiniMode enable dtbocfg) (before ++ text) =
      (start.bind fun st => (fgetsLines 1021 text).foldlM (exiniLine (exiniMode enable dtbocfg)) st).map
        ExiniLoad.sections := by
  refine ⟨(fgetsLines 1021 before).foldlM (exiniLine (exiniMode enable dtbocfg))
    (if exiniHasQuirks (exiniMode enable dtbocfg) EXINI_QUIRK_DTBOCFG then ⟨[], some ⟨DTBOCFG_GLOBAL_OPTION, []⟩⟩
      else ⟨[], none⟩), fun text => ?_⟩
  rw [exiniLoad, fgetsLines_append ended, List.foldlM_append]
  rfl

theorem sections_inj {st st' : ExiniLoad} {section_ section_' : ExiniSection} (last : st.last = some section_)
    (last' : st'.last = some section_') (same : st.sections = st'.sections) : st = st' := by
  rw [ExiniLoad.sections, ExiniLoad.sections, last, last'] at same
  obtain ⟨closed, final⟩ := List.append_inj' same rfl
  cases st
  cases st'
  simp_all

theorem commented_newline {gap text : List Byte} (valid : ExiniLineValid dtbocfg line)
    (blank : ∀ c ∈ gap, isSpace c = true ∧ c ≠ 10#8) (plain : ∀ c ∈ text, c ≠ 10#8 ∧ c ≠ 0#8) :
    10#8 ∉ line ++ (gap ++ commentChar dtbocfg :: text) := by
  have char : commentChar dtbocfg ≠ 10#8 := by cases dtbocfg <;> decide
  simp only [List.mem_append, List.mem_cons, not_or]
  exact ⟨fun member => (valid.plain _ member).1 rfl, fun member => (blank _ member).2 rfl, char.symm,
    fun member => (plain _ member).1 rfl⟩

theorem comment_zero {gap text : List Byte} (blank : ∀ c ∈ gap, isSpace c = true ∧ c ≠ 10#8)
    (plain : ∀ c ∈ text, c ≠ 10#8 ∧ c ≠ 0#8) : 0#8 ∉ gap ++ commentChar dtbocfg :: text ++ [10#8] := by
  have char : commentChar dtbocfg ≠ 0#8 := by cases dtbocfg <;> decide
  simp only [List.mem_append, List.mem_cons, List.not_mem_nil, or_false, not_or]
  exact ⟨⟨fun member => absurd (blank _ member).1 (by decide), char.symm, fun member => (plain _ member).2 rfl⟩, by decide⟩

/-- A commented line is one piece of the buffer's size, and what that leaves of the comment. -/
theorem fgetsLines_commented (short : line.length ≤ 1021) {comment : List Byte} (newline : 10#8 ∉ line ++ comment) :
    fgetsLines 1021 (line ++ comment ++ [10#8]) = (line ++ (comment ++ [10#8]).take (1022 - line.length)) ::
      fgetsLines 1021 ((comment ++ [10#8]).drop (1022 - line.length)) := by
  rw [fgetsLines_take 1021 newline, List.append_assoc line, List.take_append, List.drop_append,
    List.take_of_length_le (by omega), List.drop_of_length_le (by omega), List.nil_append]

/-- Pieces behind a line give the sections that the line gives alone only if they add nothing. -/
theorem exiniPieces_iff {st st' : ExiniLoad} {text left : CString} {pieces : List (List Byte)}
    (read : ¬ ExiniSkipped dtbocfg text) (loaded : exiniEntry (exiniMode enable dtbocfg) st text = some st') :
    ((exiniEntry (exiniMode enable dtbocfg) st (text ++ left)).bind fun next =>
        pieces.foldlM (exiniLine (exiniMode enable dtbocfg)) next).map ExiniLoad.sections = some st'.sections ↔
      exiniEntry (exiniMode enable dtbocfg) st (text ++ left) = some st' ∧ ∀ piece ∈ pieces, ExiniBlank dtbocfg piece := by
  constructor
  · intro same
    obtain ⟨final, run, sections⟩ := Option.map_eq_some_iff.mp same
    obtain ⟨next, first, rest⟩ := Option.bind_eq_some_iff.mp run
    obtain ⟨⟨_, last⟩, here⟩ := exiniEntry_weight (skipped_append read) first
    obtain ⟨⟨_, last'⟩, there⟩ := exiniEntry_weight read loaded
    have passed := (exiniLines_weight rest).2 (by rw [sections, there, here])
    rw [exiniLines_blank passed] at rest
    obtain rfl := Option.some.inj rest
    rw [sections_inj last last' sections] at first
    exact ⟨first, passed⟩
  · intro ⟨first, passed⟩
    rw [first, Option.bind_some, exiniLines_blank passed, Option.map_some]

/-- A line gives the same sections and properties with a comment behind it exactly if the comment fits. -/
theorem exiniLoad_comment_iff {before gap text : List Byte} (ended : before = [] ∨ before.getLast? = some 10#8)
    (valid : ExiniLineValid dtbocfg line)
    (loads : (exiniLoad (exiniMode enable dtbocfg) (before ++ (line ++ [10#8]))).isSome = true)
    (blank : ∀ c ∈ gap, isSpace c = true ∧ c ≠ 10#8) (plain : ∀ c ∈ text, c ≠ 10#8 ∧ c ≠ 0#8) :
    exiniLoad (exiniMode enable dtbocfg) (before ++ (line ++ (gap ++ commentChar dtbocfg :: text) ++ [10#8])) =
        exiniLoad (exiniMode enable dtbocfg) (before ++ (line ++ [10#8])) ↔
      ExiniCommentFits dtbocfg line (gap ++ commentChar dtbocfg :: text) := by
  obtain ⟨start, load⟩ := @exiniLoad_append enable dtbocfg before ended
  have newline := commented_newline valid blank plain
  have zero := @comment_zero dtbocfg gap text blank plain
  have short := valid.short
  have alone : fgetsLines 1021 (line ++ [10#8]) = [line ++ [10#8]] := by
    rw [fgetsLines_take 1021 fun member => newline (List.mem_append_left _ member),
      List.take_of_length_le (by simp; omega), List.drop_of_length_le (by simp; omega), fgetsLines]
  rw [load, alone] at loads
  rw [load, load, alone, fgetsLines_commented short newline]
  cases start with
  | none => cases loads
  | some st =>
    have single : [line ++ [10#8]].foldlM (exiniLine (exiniMode enable dtbocfg)) st =
        exiniEntry (exiniMode enable dtbocfg) st (exiniText line) := by
      rw [List.foldlM_cons, exiniLine_valid valid]
      simp
    rw [Option.bind_some, single] at loads
    obtain ⟨st', loaded⟩ := Option.isSome_iff_exists.mp (by simpa using loads)
    have behind : CommentLeft dtbocfg ((stringSkipHeadSpace line).rtakeWhile isSpace ++
        (gap ++ commentChar dtbocfg :: text ++ [10#8]).take (1022 - line.length)) :=
      commentLeft_behind (fun c member => (blank c member).1) _
    rw [Option.bind_some, Option.bind_some, single, loaded, Option.map_some, ExiniCommentFits, List.foldlM_cons,
      exiniLine_text valid fun member => zero (List.mem_of_mem_take member),
      ← exiniEntry_more valid.read (exiniText_ended line) loaded (behind.trimmed.left (exiniText line))]
    exact exiniPieces_iff valid.read loaded

theorem exiniLoad_lines (ini : Exini) {lines : List (List Byte)} (fits : ∀ line ∈ lines, line.length ≤ 1021 ∧ 10#8 ∉ line) :
    exiniLoad ini (lines.flatMap (· ++ [10#8])) = ((lines.map (· ++ [10#8])).foldlM (exiniLine ini)
      (if exiniHasQuirks ini EXINI_QUIRK_DTBOCFG then ⟨[], some ⟨DTBOCFG_GLOBAL_OPTION, []⟩⟩ else ⟨[], none⟩)).map
        ExiniLoad.sections := by
  rw [exiniLoad, fgetsLines_lines 1021 lines fits]

theorem exiniLoad_comment_number :
    exiniLoad (exiniMode true false) (cstr "[s]\n" ++ (cstr "a=1" ++ (cstr "  " ++ commentChar false :: cstr " one") ++ [10#8])) =
        exiniLoad (exiniMode true false) (cstr "[s]\n" ++ (cstr "a=1" ++ [10#8])) ↔
      ExiniCommentFits false (cstr "a=1") (cstr "  " ++ commentChar false :: cstr " one") := by
  have loads : (exiniLoad (exiniMode true false) ([cstr "[s]", cstr "a=1"].flatMap (· ++ [10#8]))).isSome = true := by
    rw [exiniLoad_lines _ (by decide)]
    decide
  have valid : ExiniLineValid false (cstr "a=1") :=
    ⟨by decide, by decide, by simp [ExiniSkipped]; decide, .inl (by decide)⟩
  exact exiniLoad_comment_iff (.inr (by decide)) valid loads (by decide) (by decide)

/-- A quoted value keeps its comment. -/
theorem exiniLoad_comment_quoted :
    ExiniLineValid false (cstr "a=\"b\"") ∧
      (exiniLoad (exiniMode false false) (cstr "[s]\n" ++ (cstr "a=\"b\"" ++ [10#8]))).isSome = true ∧
      exiniLoad (exiniMode false false)
        (cstr "[s]\n" ++ (cstr "a=\"b\"" ++ (cstr " " ++ commentChar false :: cstr " note") ++ [10#8])) = none := by
  have alone : (exiniLoad (exiniMode false false) ([cstr "[s]", cstr "a=\"b\""].flatMap (· ++ [10#8]))).isSome = true := by
    rw [exiniLoad_lines _ (by decide)]
    decide
  have commented : exiniLoad (exiniMode false false)
      ([cstr "[s]", cstr "a=\"b\" ; note"].flatMap (· ++ [10#8])) = none := by
    rw [exiniLoad_lines _ (by decide)]
    decide
  exact ⟨⟨by decide, by decide, by simp [ExiniSkipped]; decide, .inl (by decide)⟩, alone, commented⟩

end Comments

end ImgEditor
