import ImgEditor.Android.Dtimg

namespace ImgEditor

open Storage CText

def dtbocfg : Exini := ⟨true, none, EXINI_QUIRK_DTBOCFG⟩

theorem dtbocfg_quirk : exiniHasQuirks dtbocfg EXINI_QUIRK_DTBOCFG = true := by decide

/-- Lines that fit the line buffer and take the loader from one state to another. -/
structure LoadsLines (st : ExiniLoad) (lines : List (List Byte)) (st' : ExiniLoad) : Prop where
  short : ∀ line ∈ lines, line.length ≤ 1021 ∧ 10#8 ∉ line
  loads : (lines.map (· ++ [10#8])).foldlM (exiniLine dtbocfg) st = some st'

namespace LoadsLines

variable {st st' st'' : ExiniLoad} {lines more : List (List Byte)}

theorem nil (st : ExiniLoad) : LoadsLines st [] st := ⟨by simp, rfl⟩

theorem one {line : List Byte} (short : line.length ≤ 1021) (plain : 10#8 ∉ line)
    (loads : exiniLine dtbocfg st (line ++ [10#8]) = some st') : LoadsLines st [line] st' := by
  constructor
  · intro other member
    rw [List.mem_singleton.mp member]
    exact ⟨short, plain⟩
  · simp [loads]

theorem append (first : LoadsLines st lines st') (second : LoadsLines st' more st'') :
    LoadsLines st (lines ++ more) st'' := by
  constructor
  · intro line member
    rcases List.mem_append.mp member with member | member
    · exact first.short line member
    · exact second.short line member
  · rw [List.map_append, List.foldlM_append, first.loads]
    exact second.loads

theorem exiniLoad {lines : List (List Byte)} {st : ExiniLoad}
    (loaded : LoadsLines ⟨[], some ⟨DTBOCFG_GLOBAL_OPTION, []⟩⟩ lines st) :
    exiniLoad dtbocfg (lines.flatMap (· ++ [10#8])) = some st.sections := by
  rw [ImgEditor.exiniLoad, fgetsLines_lines 1021 lines loaded.short]
  simp only [dtbocfg_quirk, ↓reduceIte, loaded.loads, Option.map_some]

end LoadsLines

theorem ExiniWord.newline_not_mem {s : CString} (word : ExiniWord s) : 10#8 ∉ s := by
  intro member
  have space := (word.2 _ member).1
  exact absurd space (by decide)

theorem digitChar_plain {d : Nat} (small : d < 16) : isSpace (digitChar d) = false ∧
    digitChar d ∉ [0#8, 34#8, 35#8, 59#8, 61#8, 91#8, 123#8] := by
  have all : ∀ d : Fin 16, isSpace (digitChar d) = false ∧
      digitChar d ∉ [0#8, 34#8, 35#8, 59#8, 61#8, 91#8, 123#8] := by decide
  exact all ⟨d, small⟩

theorem ExiniWord.append {s t : CString} (left : ExiniWord s) (right : ExiniWord t) : ExiniWord (s ++ t) := by
  constructor
  · exact List.append_ne_nil_of_left_ne_nil left.1 t
  · intro c member
    rcases List.mem_append.mp member with member | member
    · exact left.2 c member
    · exact right.2 c member

theorem printed_word {base : Nat} (several : 1 < base) (bounded : base ≤ 16) (n : Nat) :
    ExiniWord (printed base n) := by
  obtain ⟨nonempty, _, plain, _⟩ := printed_valid several bounded n
  constructor
  · exact nonempty
  · intro c member
    obtain ⟨d, small, rfl⟩ := plain c member
    exact digitChar_plain small

def hexValue (value : BitVec 32) : CString := 48#8 :: 120#8 :: printed 16 value.toNat

theorem hexValue_word (value : BitVec 32) : ExiniWord (hexValue value) :=
  ExiniWord.append (s := [48#8, 120#8]) (by decide) (printed_word (by decide) (by decide) _)

theorem hexValue_length (value : BitVec 32) : (hexValue value).length ≤ 10 := by
  have digits : (printed 16 value.toNat).length ≤ 8 :=
    printed_length_le (by decide) (by decide) (value.isLt.trans_le (by decide))
  simp only [hexValue, List.length_cons]
  omega

theorem exiniDefaultKvHandler_hex (section_ : ExiniSection) (key : CString) (value : BitVec 32) :
    exiniDefaultKvHandler true section_ key (hexValue value) =
      some (exiniAddProperty section_ key (.ulong value.toNat)) := by
  have number : strtoulAnyBase (hexValue value) = (value.toNat, []) :=
    strtoulAnyBase_hex (value.isLt.trans (by decide))
  have start : (hexValue value).head? = some 48#8 := rfl
  have nonempty : hexValue value ≠ [] := by simp [hexValue]
  rw [exiniDefaultKvHandler, if_neg nonempty, if_neg (by rw [start]; simp), number]
  rfl

/-- A property of a section: its name, its value, and the value that is left out. -/
structure DtimgNumber where
  name : CString
  value : BitVec 32
  default_ : BitVec 32

namespace DtimgNumber

def line (number : DtimgNumber) : List Byte := exiniPropertyLine number.name (hexValue number.value)

def property (number : DtimgNumber) : ExiniProperty := ⟨number.name, .ulong number.value.toNat⟩

def names : List CString := [cstr "id", cstr "rev", customName 0, customName 1, customName 2, customName 3]

theorem customName_word (i : Fin 4) : ExiniWord (customName i) ∧ (customName i).length ≤ 7 := by
  have prefix_ : (cstr "custom").length = 6 := by decide
  have digit : (printed 10 i.val).length ≤ 1 := printed_length_le (by decide) (by decide) (i.isLt.trans (by decide))
  constructor
  · exact ExiniWord.append (by decide) (printed_word (by decide) (by decide) i.val)
  · rw [customName, List.length_append, prefix_]
    exact Nat.add_le_add_left digit 6

theorem names_words : ∀ name ∈ names, ExiniWord name ∧ name.length ≤ 7 := by
  intro name member
  simp only [names, List.mem_cons, List.not_mem_nil, or_false] at member
  rcases member with rfl | rfl | rfl | rfl | rfl | rfl
  · decide
  · decide
  all_goals exact customName_word _

end DtimgNumber

def printedNumbers (numbers : List DtimgNumber) : List DtimgNumber :=
  numbers.filter fun number => decide (number.value ≠ number.default_)

theorem dtimgUnpackEntrySection_eq (numbers : List DtimgNumber) :
    numbers.flatMap (fun number => dtimgUnpackEntrySection number.value number.name number.default_) =
      ((printedNumbers numbers).map DtimgNumber.line).flatMap (· ++ [10#8]) := by
  have shape : ∀ number : DtimgNumber, dtimgNumberLine number.name number.value = number.line ++ [10#8] := by
    intro number
    simp [dtimgNumberLine, DtimgNumber.line, exiniPropertyLine, hexValue, cstr]
  induction numbers with
  | nil => rfl
  | cons number rest ih =>
    rw [List.flatMap_cons, ih, dtimgUnpackEntrySection, printedNumbers, printedNumbers]
    by_cases same : number.value = number.default_
    · rw [if_neg (not_not_intro same), List.filter_cons_of_neg (by simpa using same), List.nil_append]
    · rw [if_pos same, List.filter_cons_of_pos (by simpa using same), shape]
      rfl

theorem loadsLines_number {number : DtimgNumber} (known : number.name ∈ DtimgNumber.names) {st : ExiniLoad}
    {section_ : ExiniSection} (last : st.last = some section_) :
    LoadsLines st [number.line]
      { st with last := some { section_ with properties := section_.properties ++ [number.property] } } := by
  obtain ⟨word, short⟩ := DtimgNumber.names_words _ known
  have value := hexValue_word number.value
  have length := hexValue_length number.value
  have cut : number.name.take 127 = number.name := List.take_of_length_le (by omega)
  apply LoadsLines.one
  · have indent : (cstr "  ").length = 2 := by decide
    simp only [DtimgNumber.line, exiniPropertyLine, List.length_append, List.length_cons, indent]
    omega
  · have indent : 10#8 ∉ cstr "  " := by decide
    simp only [DtimgNumber.line, exiniPropertyLine, List.mem_append, List.mem_cons, not_or]
    exact ⟨indent, word.newline_not_mem, by decide, value.newline_not_mem⟩
  · rw [DtimgNumber.line, exiniLine_property dtbocfg_quirk word value last]
    have handled := exiniDefaultKvHandler_hex section_ number.name number.value
    simp only [dtbocfg, Option.getD_none, handled, Option.map_some]
    rw [exiniAddProperty, cut, DtimgNumber.property]

theorem loadsLines_numbers {numbers : List DtimgNumber} (known : ∀ number ∈ numbers, number.name ∈ DtimgNumber.names)
    {st : ExiniLoad} {section_ : ExiniSection} (last : st.last = some section_) :
    LoadsLines st (numbers.map DtimgNumber.line)
      { st with last := some { section_ with
          properties := section_.properties ++ numbers.map DtimgNumber.property } } := by
  induction numbers generalizing st section_ with
  | nil =>
    rw [List.map_nil, List.map_nil, List.append_nil, ← last]
    exact .nil st
  | cons number rest ih =>
    have first := loadsLines_number (known number List.mem_cons_self) last
    have others := @ih (fun other member => known other (List.mem_cons_of_mem _ member))
      { st with last := some { section_ with properties := section_.properties ++ [number.property] } } _ rfl
    have all := first.append others
    simp only [List.append_assoc, List.singleton_append] at all
    exact all

theorem boardName_eq {i : Nat} (small : i + 1 < 2 ^ 31) :
    boardName i = cstr "board" ++ printed 10 (i + 1) ++ cstr ".dtbo" := by
  have value : (BitVec.ofNat 32 (i + 1)).toNat = i + 1 := by
    rw [BitVec.toNat_ofNat]
    omega
  rw [boardName, snprintfUnsigned32, value, if_pos small]
  rfl

theorem boardName_word {i : Nat} (small : i + 1 < 2 ^ 31) : ExiniWord (boardName i) ∧ (boardName i).length ≤ 20 := by
  have prefix_ : (cstr "board").length = 5 ∧ (cstr ".dtbo").length = 5 := by decide
  have digits : (printed 10 (i + 1)).length ≤ 10 :=
    printed_length_le (by decide) (by decide) (small.trans (by decide))
  rw [boardName_eq small]
  constructor
  · exact ((ExiniWord.append (by decide) (printed_word (by decide) (by decide) _)).append (by decide))
  · rw [List.length_append, List.length_append, prefix_.1, prefix_.2]
    omega

theorem boardName_injective {i j : Nat} (smallI : i + 1 < 2 ^ 31) (smallJ : j + 1 < 2 ^ 31)
    (same : boardName i = boardName j) : i = j := by
  rw [boardName_eq smallI, boardName_eq smallJ] at same
  have digits : printed 10 (i + 1) = printed 10 (j + 1) :=
    List.append_cancel_left (List.append_cancel_right same)
  have values := congrArg (numeral 10) digits
  rw [(printed_valid (by decide) (by decide) _).2.2.2, (printed_valid (by decide) (by decide) _).2.2.2] at values
  omega

theorem boardName_head {i : Nat} : (boardName i).head? = some 98#8 := by
  rw [boardName, List.append_assoc]
  rfl

theorem boardName_ne {i : Nat} : boardName i ≠ dtboimgCfg ∧ boardName i ≠ DTBOCFG_GLOBAL_OPTION := by
  constructor
  · intro same
    have heads := congrArg List.head? same
    rw [boardName_head] at heads
    exact absurd heads (by decide)
  · intro same
    have heads := congrArg List.head? same
    rw [boardName_head] at heads
    exact absurd heads (by decide)

/-- An entry together with the device tree and the bytes of its blob. -/
structure DtimgBoard where
  entry : DtTableEntry
  root : DeviceNode
  blob : List Byte

section Config

variable (p : DtimgPrivateData)

def DtimgBoard.numbers (board : DtimgBoard) : List DtimgNumber :=
  ⟨cstr "id", board.entry.id, dtimgDtboGetGlobal board.root (cstr "board_id")⟩ ::
    ⟨cstr "rev", board.entry.rev, dtimgDtboGetGlobal board.root (cstr "board_rev")⟩ ::
    (List.finRange 4).map fun j => ⟨customName j, board.entry.custom j, dtimgGetDefaultCustom p.entries j⟩

def globalNumbers : List DtimgNumber :=
  (List.finRange 4).map fun j => ⟨customName j, dtimgGetDefaultCustom p.entries j, 0⟩

theorem numbers_names (board : DtimgBoard) : (board.numbers p).map DtimgNumber.name = DtimgNumber.names := rfl

theorem globalNumbers_names : (globalNumbers p).map DtimgNumber.name = DtimgNumber.names.drop 2 := rfl

def sectionLines (i : Nat) (board : DtimgBoard) : List (List Byte) :=
  boardName i :: (printedNumbers (board.numbers p)).map DtimgNumber.line

/-- The lines of the sections; `front` is what the first line feed ends. -/
def configLines (front : List Byte) : Nat → List DtimgBoard → List (List Byte)
  | _, [] => []
  | i, board :: rest => front :: (sectionLines p i board ++ configLines [] (i + 1) rest)

def entriesText : Nat → List DtimgBoard → List Byte
  | _, [] => []
  | i, board :: rest => dtimgUnpackEntry p i board.entry board.root ++ entriesText (i + 1) rest

theorem dtimgUnpackEntry_eq (i : Nat) (board : DtimgBoard) : dtimgUnpackEntry p i board.entry board.root =
    [10#8] ++ (sectionLines p i board).flatMap (· ++ [10#8]) := by
  have numbers := dtimgUnpackEntrySection_eq (board.numbers p)
  rw [sectionLines, List.flatMap_cons, ← numbers]
  simp [dtimgUnpackEntry, DtimgBoard.numbers, List.flatMap_map]

theorem entriesText_eq (front : List Byte) (i : Nat) {boards : List DtimgBoard} (some : boards ≠ [] ∨ front = []) :
    front ++ entriesText p i boards = (configLines p front i boards).flatMap (· ++ [10#8]) := by
  induction boards generalizing front i with
  | nil =>
    obtain rfl : front = [] := by simpa using some
    rfl
  | cons board rest ih =>
    have later := ih [] (i + 1) (Or.inr rfl)
    rw [List.nil_append] at later
    rw [entriesText, configLines, dtimgUnpackEntry_eq, List.flatMap_cons, List.flatMap_append, later]
    simp

def boardSections : Nat → List DtimgBoard → List ExiniSection
  | _, [] => []
  | i, board :: rest =>
    ⟨boardName i, (printedNumbers (board.numbers p)).map DtimgNumber.property⟩ :: boardSections (i + 1) rest

theorem loadsLines_section {i : Nat} (small : i + 1 < 2 ^ 31) (board : DtimgBoard) (st : ExiniLoad) :
    LoadsLines st (sectionLines p i board)
      ⟨st.sections, some ⟨boardName i, (printedNumbers (board.numbers p)).map DtimgNumber.property⟩⟩ := by
  obtain ⟨word, length⟩ := boardName_word small
  have cut : (boardName i).take 127 = boardName i := List.take_of_length_le (by omega)
  have title : LoadsLines st [boardName i] ⟨st.sections, some ⟨boardName i, []⟩⟩ := by
    apply LoadsLines.one (by omega) word.newline_not_mem
    rw [exiniLine_section dtbocfg_quirk word, ExiniLoad.addSection, cut]
  have known : ∀ number ∈ printedNumbers (board.numbers p), number.name ∈ DtimgNumber.names := by
    intro number member
    rw [← numbers_names p board]
    exact List.mem_map_of_mem (List.mem_of_mem_filter member)
  exact title.append (@loadsLines_numbers _ known ⟨st.sections, some ⟨boardName i, []⟩⟩ ⟨boardName i, []⟩ rfl)

theorem loadsLines_config {front : List Byte} (skipped : ∀ st, LoadsLines st [front] st) {i : Nat}
    (boards : List DtimgBoard) (small : i + boards.length < 2 ^ 31) (st : ExiniLoad) :
    ∃ st', LoadsLines st (configLines p front i boards) st' ∧
      st'.sections = st.sections ++ boardSections p i boards := by
  have empty : ∀ st, LoadsLines st [[]] st := fun st =>
    LoadsLines.one (by decide) (by decide) (exiniLine_empty st)
  induction boards generalizing front i st with
  | nil => exact ⟨st, .nil st, by simp [boardSections]⟩
  | cons board rest ih =>
    simp only [List.length_cons] at small
    have here : i + 1 < 2 ^ 31 := by omega
    obtain ⟨st', loads, sections⟩ := @ih [] empty (i + 1) (by omega)
      ⟨st.sections, some ⟨boardName i, (printedNumbers (board.numbers p)).map DtimgNumber.property⟩⟩
    have first := (skipped st).append (loadsLines_section p here board st)
    refine ⟨st', ?_, ?_⟩
    · have all := first.append loads
      rw [List.append_assoc] at all
      exact all
    · rw [sections, boardSections]
      simp [ExiniLoad.sections]

def globalSection : ExiniSection where
  name := DTBOCFG_GLOBAL_OPTION
  properties := [⟨cstr "id", .unknown (cstr "/:board_id")⟩, ⟨cstr "rev", .unknown (cstr "/:board_rev")⟩] ++
    (printedNumbers (globalNumbers p)).map DtimgNumber.property

def globalLines : List (List Byte) :=
  [cstr "# global options", exiniPropertyLine (cstr "id") (cstr "/:board_id"),
    exiniPropertyLine (cstr "rev") (cstr "/:board_rev")] ++ (printedNumbers (globalNumbers p)).map DtimgNumber.line

theorem dtimgUnpackGlobal_eq : dtimgUnpackGlobal p = (globalLines p).flatMap (· ++ [10#8]) := by
  have numbers := dtimgUnpackEntrySection_eq (globalNumbers p)
  rw [globalLines, List.flatMap_append, ← numbers]
  simp [dtimgUnpackGlobal, globalNumbers, List.flatMap_map, dtimgUnpackEntrySection, exiniPropertyLine, cstr]

theorem loadsLines_comment {text : CString} (short : text.length < 1021) (plain : 0#8 ∉ text ∧ 10#8 ∉ text)
    (st : ExiniLoad) : LoadsLines st [35#8 :: text] st := by
  apply LoadsLines.one
  · rw [List.length_cons]
    omega
  · simpa using plain.2
  · apply exiniLine_comment dtbocfg_quirk
    simpa using plain.1

theorem loadsLines_unknown {key value : CString} (keyWord : ExiniWord key) (valueWord : ExiniWord value)
    (short : key.length + value.length ≤ 127) {section_ : ExiniSection}
    (handled : exiniDefaultKvHandler true section_ key value =
      some { section_ with properties := section_.properties ++ [⟨key, .unknown value⟩] }) :
    LoadsLines ⟨[], some section_⟩ [exiniPropertyLine key value]
      ⟨[], some { section_ with properties := section_.properties ++ [⟨key, .unknown value⟩] }⟩ := by
  apply LoadsLines.one
  · have indent : (cstr "  ").length = 2 := by decide
    simp only [exiniPropertyLine, List.length_append, List.length_cons, indent]
    omega
  · have indent : 10#8 ∉ cstr "  " := by decide
    simp only [exiniPropertyLine, List.mem_append, List.mem_cons, not_or]
    exact ⟨indent, keyWord.newline_not_mem, by decide, valueWord.newline_not_mem⟩
  · rw [exiniLine_property dtbocfg_quirk keyWord valueWord rfl]
    simp only [dtbocfg, Option.getD_none, handled, Option.map_some]

theorem loadsLines_global : LoadsLines ⟨[], some ⟨DTBOCFG_GLOBAL_OPTION, []⟩⟩ (globalLines p)
    ⟨[], some (globalSection p)⟩ := by
  have comment := @loadsLines_comment (cstr " global options") (by decide) (by decide)
    ⟨[], some ⟨DTBOCFG_GLOBAL_OPTION, []⟩⟩
  have id := @loadsLines_unknown (cstr "id") (cstr "/:board_id") (by decide) (by decide) (by decide)
    ⟨DTBOCFG_GLOBAL_OPTION, []⟩ (by decide)
  have rev := @loadsLines_unknown (cstr "rev") (cstr "/:board_rev") (by decide) (by decide) (by decide)
    ⟨DTBOCFG_GLOBAL_OPTION, [⟨cstr "id", .unknown (cstr "/:board_id")⟩]⟩ (by decide)
  have known : ∀ number ∈ printedNumbers (globalNumbers p), number.name ∈ DtimgNumber.names := by
    intro number member
    have name : number.name ∈ DtimgNumber.names.drop 2 := by
      rw [← globalNumbers_names p]
      exact List.mem_map_of_mem (List.mem_of_mem_filter member)
    exact List.mem_of_mem_drop name
  have numbers := @loadsLines_numbers _ known ⟨[], some ⟨DTBOCFG_GLOBAL_OPTION,
    [⟨cstr "id", .unknown (cstr "/:board_id")⟩, ⟨cstr "rev", .unknown (cstr "/:board_rev")⟩]⟩⟩ _ rfl
  exact ((comment.append id).append rev).append numbers

theorem exiniLoad_config {boards : List DtimgBoard} (some_ : boards ≠ []) (small : boards.length < 2 ^ 31) :
    exiniLoad dtbocfg (dtimgUnpackGlobal p ++ ([10#8] ++ cstr "# entries") ++ entriesText p 0 boards) =
      some (globalSection p :: boardSections p 0 boards) := by
  have text : dtimgUnpackGlobal p ++ ([10#8] ++ cstr "# entries") ++ entriesText p 0 boards =
      (globalLines p ++ [[]] ++ configLines p (cstr "# entries") 0 boards).flatMap (· ++ [10#8]) := by
    rw [List.flatMap_append, List.flatMap_append, ← dtimgUnpackGlobal_eq,
      ← entriesText_eq p (cstr "# entries") 0 (Or.inl some_)]
    simp
  have empty : LoadsLines ⟨[], some (globalSection p)⟩ [[]] ⟨[], some (globalSection p)⟩ :=
    LoadsLines.one (by decide) (by decide) (exiniLine_empty _)
  have front : ∀ st, LoadsLines st [cstr "# entries"] st :=
    @loadsLines_comment (cstr " entries") (by decide) (by decide)
  have bound : 0 + boards.length < 2 ^ 31 := by omega
  obtain ⟨st, loads, sections⟩ := loadsLines_config p front boards bound ⟨[], some (globalSection p)⟩
  have all := ((loadsLines_global p).append empty).append loads
  rw [text, all.exiniLoad, sections]
  rfl

end Config

end ImgEditor
