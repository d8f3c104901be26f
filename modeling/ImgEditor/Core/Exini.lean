import ImgEditor.Core.StringHelper
import ImgEditor.Core.StructureTable

namespace ImgEditor

open Storage CText

inductive ExiniData where
  | null
  | ulong (n : Nat)
  | string (s : CString)
  | unknown (s : CString)
deriving DecidableEq, Repr

structure ExiniProperty where
  name : CString
  data : ExiniData
deriving DecidableEq, Repr

structure ExiniSection where
  name : CString
  properties : List ExiniProperty
deriving DecidableEq, Repr

/-- The fields of `struct exini` that its user sets. -/
structure Exini where
  enableUnknownData : Bool
  propHandler : Option (ExiniSection → CString → CString → Option ExiniSection)
  quirks : BitVec 32

def EXINI_QUIRK_ANONYMOUS_SECTION : BitVec 32 := 1
def EXINI_QUIRK_DTBOCFG : BitVec 32 := 2

def DTBOCFG_GLOBAL_OPTION : CString := cstr "__global_option"

def exiniHasQuirks (ini : Exini) (quirks : BitVec 32) : Bool := quirks = 0 ∨ ini.quirks &&& quirks ≠ 0

/-- The sections of an ini file that is being loaded. New properties go to the last one. -/
structure ExiniLoad where
  closed : List ExiniSection
  last : Option ExiniSection

namespace ExiniLoad

def sections (st : ExiniLoad) : List ExiniSection := st.closed ++ st.last.toList

/-- `exini_alloc_section` cuts a name to fit `char name[128]`. -/
def addSection (st : ExiniLoad) (name : CString) : ExiniLoad := ⟨st.sections, some ⟨name.take 127, []⟩⟩

end ExiniLoad

def exiniAddProperty (section_ : ExiniSection) (name : CString) (data : ExiniData) : ExiniSection :=
  { section_ with properties := section_.properties ++ [⟨name.take 127, data⟩] }

def exiniDefaultKvHandler (enableUnknown : Bool) (section_ : ExiniSection) (key value : CString) :
    Option ExiniSection :=
  if value = [] then some (exiniAddProperty section_ key .null)
  else if value.head? = some 34#8 ∧ value.getLast? = some 34#8 then
    some (exiniAddProperty section_ key (.string ((value.drop 1).dropLast.take 127)))
  else
    let (ul, endp) := strtoulAnyBase value
    if endp = [] then some (exiniAddProperty section_ key (.ulong ul))
    else if enableUnknown then some (exiniAddProperty section_ key (.unknown (value.take 127)))
    else none

def exiniFindSection (sections : List ExiniSection) (name : CString) : Option ExiniSection :=
  sections.find? fun section_ => decide (section_.name = name)

def exiniFindSectionProperty (section_ : ExiniSection) (name : CString) : Option ExiniProperty :=
  section_.properties.find? fun prop => decide (prop.name = name)

inductive ExiniErr where
  | notDefined
  | badType
deriving DecidableEq, Repr

def exiniSectionReadUlong (section_ : ExiniSection) (name : CString) : Except ExiniErr Nat :=
  match exiniFindSectionProperty section_ name with
  | none => .error .notDefined
  | some prop =>
    match prop.data with
    | .ulong n => .ok n
    | _ => .error .badType

/-- `exini_section_read_string` without a default. It reports every error as `EXINI_ERR_NOT_DEFINED`. -/
def exiniSectionReadString (section_ : ExiniSection) (name : CString) (enableUnknown : Bool) : Option CString :=
  match exiniFindSectionProperty section_ name with
  | none => none
  | some prop =>
    match prop.data with
    | .string s => some s
    | .unknown s => if enableUnknown then some s else none
    | _ => none

def exiniLoadProperty (ini : Exini) (st : ExiniLoad) (s : CString) : Option ExiniLoad :=
  if s.count 61#8 ≠ 1 then none
  else
    match st.last with
    | none => none
    | some section_ =>
      let key := stringRemoveEolSpace (stringSkipHeadSpace (s.takeWhile (· ≠ 61#8)))
      let value := stringRemoveEolSpace (stringSkipHeadSpace ((s.dropWhile (· ≠ 61#8)).drop 1))
      if key.countP isSpace > 0 then none
      else if value.head? ≠ some 34#8 ∧ value.countP isSpace > 0 then none
      else
        let handler := ini.propHandler.getD (exiniDefaultKvHandler ini.enableUnknownData)
        (handler section_ key value).map fun section_ => { st with last := some section_ }

def removeEolComment (ini : Exini) (start : CString) : CString :=
  let s := stringRemoveEolSpace start
  let c : Byte := if exiniHasQuirks ini EXINI_QUIRK_DTBOCFG then 35 else 59
  -- strrchr: what stands in front of the last comment character
  let front := (s.reverse.dropWhile (· ≠ c)).drop 1
  if c ∈ s ∧ 34#8 ∉ s.drop 1 then front.reverse else s

def exiniAnonymousProperties (ini : Exini) : ExiniLoad → List CString → Option ExiniLoad
  | st, [] => some st
  | st, piece :: rest =>
    let prop := stringRemoveEolSpace (stringSkipHeadSpace piece)
    if prop = [] then some st
    else (exiniLoadProperty ini st prop).bind fun st => exiniAnonymousProperties ini st rest

def exiniHandleAnonymousSection (ini : Exini) (st : ExiniLoad) (s : CString) : Option ExiniLoad :=
  if s.count 123#8 ≠ 1 ∨ s.count 125#8 ≠ 1 then none
  else exiniAnonymousProperties ini (st.addSection []) (argvBufferSplitWithDelim s (cstr "\x7b\x7d,") 64)

/-- The body of the loop of `exini_do_load` on what one fgets(3) call read. -/
def exiniLine (ini : Exini) (st : ExiniLoad) (linebuf : List Byte) : Option ExiniLoad :=
  let s := removeEolComment ini (stringSkipHeadSpace (cString linebuf))
  match s with
  | [] => some st
  | c :: _ =>
    if c = 59#8 then some st
    else if c = 35#8 ∧ exiniHasQuirks ini EXINI_QUIRK_DTBOCFG then some st
    else if exiniHasQuirks ini EXINI_QUIRK_DTBOCFG ∧ s.count 61#8 = 0 then some (st.addSection s)
    else if exiniHasQuirks ini EXINI_QUIRK_ANONYMOUS_SECTION ∧ c = 123#8 then exiniHandleAnonymousSection ini st s
    else if c = 91#8 ∧ s.getLast? = some 93#8 then some (st.addSection (s.drop 1).dropLast)
    else exiniLoadProperty ini st s

/-- `exini_load`; the sections have their places in the list as `global_index`. -/
def exiniLoad (ini : Exini) (fp : List Byte) : Option (List ExiniSection) :=
  let st : ExiniLoad :=
    if exiniHasQuirks ini EXINI_QUIRK_DTBOCFG then ⟨[], some ⟨DTBOCFG_GLOBAL_OPTION, []⟩⟩ else ⟨[], none⟩
  ((fgetsLines 1021 fp).foldlM (exiniLine ini) st).map ExiniLoad.sections

/-- A word without spaces and without a character that the format gives a meaning. -/
def ExiniWord (s : CString) : Prop :=
  s ≠ [] ∧ ∀ c ∈ s, isSpace c = false ∧ c ∉ [0#8, 34#8, 35#8, 59#8, 61#8, 91#8, 123#8]

instance (s : CString) : Decidable (ExiniWord s) := inferInstanceAs (Decidable (_ ∧ _))

theorem stringSkipHeadSpace_spaces {spaces s : CString} (blank : ∀ c ∈ spaces, isSpace c = true)
    (word : ∀ c ∈ s, isSpace c = false) (rest : CString) (nonempty : s ≠ []) :
    stringSkipHeadSpace (spaces ++ (s ++ rest)) = s ++ rest := by
  obtain ⟨head, tail, rfl⟩ := List.exists_cons_of_ne_nil nonempty
  rw [stringSkipHeadSpace, List.dropWhile_append_of_pos blank, List.cons_append, List.dropWhile_cons_of_neg]
  simp [word head List.mem_cons_self]

theorem stringRemoveEolSpace_spaces {s spaces : CString} (word : ∀ c ∈ s, isSpace c = false)
    (blank : ∀ c ∈ spaces, isSpace c = true) : stringRemoveEolSpace (s ++ spaces) = s := by
  have front : s.reverse.dropWhile isSpace = s.reverse := by
    apply List.dropWhile_eq_self_iff.mpr
    intro positive
    simp only [word _ (List.mem_reverse.mp (List.getElem_mem positive)), Bool.false_eq_true, not_false_eq_true]
  rw [stringRemoveEolSpace, List.rdropWhile, List.reverse_append, List.dropWhile_append_of_pos
    (fun c member => blank c (List.mem_reverse.mp member)), front, List.reverse_reverse]

theorem trimmed_word {s : CString} (word : ∀ c ∈ s, isSpace c = false) :
    stringRemoveEolSpace (stringSkipHeadSpace s) = s := by
  have head : stringSkipHeadSpace s = s := by
    apply List.dropWhile_eq_self_iff.mpr
    intro positive
    simp [word _ (List.getElem_mem positive)]
  have tail := @stringRemoveEolSpace_spaces s [] word (by simp)
  rw [head, ← List.append_nil s]
  rw [List.append_nil] at tail ⊢
  exact tail

theorem removeEolComment_prefix (ini : Exini) (s : CString) : removeEolComment ini s <+: s := by
  have trimmed : stringRemoveEolSpace s <+: s := List.rdropWhile_prefix _ _
  simp only [removeEolComment]
  generalize (if exiniHasQuirks ini EXINI_QUIRK_DTBOCFG = true then 35 else 59 : Byte) = c
  split
  · apply List.IsPrefix.trans _ trimmed
    rw [← List.reverse_suffix, List.reverse_reverse]
    exact (List.drop_suffix _ _).trans (List.dropWhile_suffix _)
  · exact trimmed

section Dtbocfg

variable {ini : Exini} (quirk : exiniHasQuirks ini EXINI_QUIRK_DTBOCFG = true)
include quirk

theorem dtbocfg_line {indent s : CString} (blank : ∀ c ∈ indent, isSpace c = true ∧ c ≠ 0#8) (nonempty : s ≠ [])
    (word : ∀ c ∈ s, isSpace c = false ∧ c ≠ 0#8 ∧ c ≠ 35#8) :
    removeEolComment ini (stringSkipHeadSpace (cString (indent ++ s ++ [10#8]))) = s := by
  have text : cString (indent ++ s ++ [10#8]) = indent ++ (s ++ [10#8]) := by
    rw [List.append_assoc]
    apply cString_plain
    simp only [List.mem_append, List.mem_singleton, not_or]
    exact ⟨fun member => (blank _ member).2 rfl, fun member => (word _ member).2.1 rfl, by decide⟩
  have plain : 35#8 ∉ s := fun member => (word _ member).2.2 rfl
  rw [text, stringSkipHeadSpace_spaces (fun c member => (blank c member).1) (fun c member => (word c member).1) _ nonempty]
  rw [removeEolComment, quirk, stringRemoveEolSpace_spaces (fun c member => (word c member).1) (by decide)]
  simp only [↓reduceIte]
  rw [if_neg fun comment => plain comment.1]

theorem exiniLine_section {name : CString} (word : ExiniWord name) (st : ExiniLoad) :
    exiniLine ini st (name ++ [10#8]) = some (st.addSection name) := by
  obtain ⟨nonempty, plain⟩ := word
  have line := @dtbocfg_line ini quirk [] name (by simp) nonempty fun c member => by
    obtain ⟨space, special⟩ := plain c member
    simp only [List.mem_cons, not_or] at special
    exact ⟨space, special.1, special.2.2.1⟩
  have equals : name.count 61#8 = 0 := List.count_eq_zero.mpr fun member => (plain _ member).2 (by decide)
  rw [List.nil_append] at line
  rw [exiniLine, line]
  obtain ⟨head, tail, rfl⟩ := List.exists_cons_of_ne_nil nonempty
  obtain ⟨_, special⟩ := plain head List.mem_cons_self
  simp only [List.mem_cons, not_or] at special
  simp only [special, quirk, equals, false_and, and_self, ↓reduceIte]

def exiniPropertyLine (key value : CString) : CString := cstr "  " ++ (key ++ 61#8 :: value)

omit quirk in
theorem exiniLoadProperty_words {key value : CString} (keyWord : ExiniWord key) (valueWord : ExiniWord value)
    {st : ExiniLoad} {section_ : ExiniSection} (last : st.last = some section_) :
    exiniLoadProperty ini st (key ++ 61#8 :: value) =
      (ini.propHandler.getD (exiniDefaultKvHandler ini.enableUnknownData) section_ key value).map
        fun section_ => { st with last := some section_ } := by
  have noEquals : ∀ {s : CString}, ExiniWord s → s.count 61#8 = 0 :=
    fun word => List.count_eq_zero.mpr fun member => (word.2 _ member).2 (by decide)
  have noSpaces : ∀ {s : CString}, ExiniWord s → s.countP isSpace = 0 := fun word =>
    List.countP_eq_zero.mpr fun c member => by simp [(word.2 c member).1]
  have one : (key ++ 61#8 :: value).count 61#8 = 1 := by
    rw [List.count_append, List.count_cons_self, noEquals keyWord, noEquals valueWord]
  have plain : 61#8 ∉ key := List.count_eq_zero.mp (noEquals keyWord)
  rw [exiniLoadProperty, if_neg (not_not_intro one), last]
  simp only [takeWhile_other plain, dropWhile_other plain, List.drop_one, List.tail_cons,
    trimmed_word fun c member => (keyWord.2 c member).1, trimmed_word fun c member => (valueWord.2 c member).1, noSpaces keyWord, noSpaces valueWord]
  simp

theorem exiniLine_property {key value : CString} (keyWord : ExiniWord key) (valueWord : ExiniWord value)
    {st : ExiniLoad} {section_ : ExiniSection} (last : st.last = some section_) :
    exiniLine ini st (exiniPropertyLine key value ++ [10#8]) =
      (ini.propHandler.getD (exiniDefaultKvHandler ini.enableUnknownData) section_ key value).map
        fun section_ => { st with last := some section_ } := by
  have line := @dtbocfg_line ini quirk (cstr "  ") (key ++ 61#8 :: value) (by decide) (by simp) fun c member => by
    have word : ∀ {s : CString}, ExiniWord s → c ∈ s → isSpace c = false ∧ c ≠ 0#8 ∧ c ≠ 35#8 := by
      intro s word member
      obtain ⟨space, special⟩ := word.2 c member
      simp only [List.mem_cons, not_or] at special
      exact ⟨space, special.1, special.2.2.1⟩
    rcases List.mem_append.mp member with inside | inside
    · exact word keyWord inside
    · rcases List.mem_cons.mp inside with rfl | inside
      · decide
      · exact word valueWord inside
  have equals : (key ++ 61#8 :: value).count 61#8 ≠ 0 := by simp
  rw [exiniLine, exiniPropertyLine, line, ← exiniLoadProperty_words keyWord valueWord last]
  obtain ⟨nonempty, plain⟩ := keyWord
  obtain ⟨head, tail, rfl⟩ := List.exists_cons_of_ne_nil nonempty
  obtain ⟨_, special⟩ := plain head List.mem_cons_self
  simp only [List.mem_cons, not_or] at special
  rw [List.cons_append] at equals ⊢
  simp only [special, equals, false_and, and_false, ↓reduceIte]

theorem exiniLine_comment {text : CString} (plain : 0#8 ∉ text) (st : ExiniLoad) :
    exiniLine ini st (35#8 :: text) = some st := by
  have whole : stringSkipHeadSpace (cString (35#8 :: text)) = 35#8 :: text := by
    rw [cString, List.takeWhile_eq_self_iff.mpr, stringSkipHeadSpace, List.dropWhile_cons_of_neg (by decide)]
    intro c member
    rcases List.mem_cons.mp member with rfl | member
    · decide
    · have other : c ≠ 0#8 := fun same => plain (same ▸ member)
      simpa using other
  -- whatever is cut off its end, a line that is not empty starts with the comment character
  have start := removeEolComment_prefix ini (35#8 :: text)
  rw [exiniLine, whole]
  cases cut : removeEolComment ini (35#8 :: text) with
  | nil => rfl
  | cons c rest =>
    rw [cut] at start
    obtain rfl : c = 35#8 := (List.cons_prefix_cons.mp start).1
    simp [quirk]

omit quirk in
theorem exiniLine_empty (st : ExiniLoad) : exiniLine ini st [10#8] = some st := by
  have none : removeEolComment ini (stringSkipHeadSpace (cString [10#8])) = [] := by
    have empty : stringSkipHeadSpace (cString [10#8]) = [] := by decide
    rw [empty, removeEolComment]
    simp [stringRemoveEolSpace]
  rw [exiniLine, none]

end Dtbocfg

end ImgEditor
