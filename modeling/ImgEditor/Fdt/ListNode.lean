import ImgEditor.Fdt.Fixups
import ImgEditor.Fdt.ListPropText
import ImgEditor.Storage.PrefixCode

namespace ImgEditor

open Storage CText

def FDT_SYMBOLS_LOCAL_FIXUPS : CString := cstr "__local_fixups__"
def FDT_SYMBOLS_OVERLAY : CString := cstr "__overlay__"
def FDT_ALIASES_NAME : CString := cstr "aliases"

/-- The flags and the trees that the listing looks at. -/
structure FdtTreeListing extends FdtListing where
  keepSymbols : Bool
  keepFixups : Bool
  isDtbo : Bool
  root : LabelledNode
  dtboExtern : Option LabelledNode

def fdtIndent (depth : Nat) : CString := List.replicate (depth * 4) 32

def fdtListAliasNode (fdt : FdtTreeListing) (depth : Nat) (prop : LabelledNode) : CString :=
  match fdt.root.findBypath prop.devpath with
  | none => fdtListNodeProp fdt.toFdtListing prop.name prop.data depth
  | some target =>
    if target.label = [] then fdtListNodeProp fdt.toFdtListing prop.name prop.data depth
    else fdtIndent depth ++ prop.name ++ cstr " = &" ++ target.label ++ cstr ";\n"

def fdtListAliasNodes (fdt : FdtTreeListing) (aliases : List LabelledNode) (depth : Nat) : CString :=
  aliases.flatMap (fdtListAliasNode fdt depth)

def fdtPrintNodeBegin (label name : CString) (depth : Nat) : CString :=
  cstr "\n" ++ fdtIndent depth ++ (if label = [] then [] else label ++ cstr ": ") ++ name ++ cstr " \x7b\n"

def fdtPrintReferenceNodeBegin (label : CString) (depth : Nat) : CString :=
  cstr "\n" ++ fdtIndent depth ++ cstr "&" ++ label ++ cstr " \x7b\n"

def fdtPrintNodeEnd (depth : Nat) : CString := fdtIndent depth ++ cstr "\x7d;\n"

/-- The nodes that `fdt_list_node` leaves out by their names. -/
def fdtLeftOut (fdt : FdtTreeListing) (name : CString) : Bool :=
  (!fdt.keepFixups && (name = FDT_SYMBOLS_FIXUP || name = FDT_SYMBOLS_LOCAL_FIXUPS)) ||
    (fdt.isDtbo && name.take 9 = cstr "fragment@") || (name = FDT_SYMBOLS_NAME && !fdt.keepSymbols)

/-- Whether the entries of a node are printed as references. -/
def fdtAliased (fdt : FdtTreeListing) (name : CString) : Bool :=
  name = FDT_ALIASES_NAME && !fdt.keepSymbols && (fdt.root.findByname FDT_SYMBOLS_NAME).isSome

mutual

def fdtListNode (fdt : FdtTreeListing) : LabelledNode → Nat → CString
  | .mk name label isNode data child, depth =>
    if fdtLeftOut fdt name then []
    else if ¬ isNode ∧ child = [] then fdtListNodeProp fdt.toFdtListing name data depth
    else
      fdtPrintNodeBegin label name depth ++
        (if fdtAliased fdt name then fdtListAliasNodes fdt child (depth + 1) else fdtListChilds fdt child (depth + 1)) ++
        fdtPrintNodeEnd depth

def fdtListChilds (fdt : FdtTreeListing) : List LabelledNode → Nat → CString
  | [], _ => []
  | dev :: rest, depth => fdtListNode fdt dev depth ++ fdtListChilds fdt rest depth

end

/-- The text of an overlay's fragment; none where nothing is printed and the listing ends. -/
def fdtListFragmentNode (fdt : FdtTreeListing) (fragment : LabelledNode) : Option CString := do
  let prop ← fragment.findByname (cstr "target")
  if prop.isNode then none
  else
    let phandle ← deviceNodeReadU32 prop.unlabelled
    let target ← fdt.dtboExtern.bind (deviceNodeSearchPhandle phandle)
    let overlay ← fragment.findByname FDT_SYMBOLS_OVERLAY
    if ¬ overlay.isNode then none
    else some (fdtPrintReferenceNodeBegin target.label 0 ++ fdtListChilds fdt overlay.child 1 ++ fdtPrintNodeEnd 0)

/-- What is printed of the fragments, and whether all of them are. -/
def fdtListFragments (fdt : FdtTreeListing) : List LabelledNode → CString × Bool
  | [] => ([], true)
  | node :: rest =>
    if node.isNode ∧ node.name.take 9 = cstr "fragment@" then
      match fdtListFragmentNode fdt node with
      | none => ([], false)
      | some text =>
        let (more, done) := fdtListFragments fdt rest
        (text ++ more, done)
    else fdtListFragments fdt rest

/-! ## What a listing says -/

/-- The lines of a listing as a tree. -/
inductive FdtListed where
  | nil
  | prop (name : CString) (data : List Byte) (next : FdtListed)
  | node (label name : CString) (items next : FdtListed)

def FdtListed.text (fdt : FdtListing) : FdtListed → Nat → CString
  | nil, _ => []
  | prop name data next, depth => fdtIndent depth ++ (name ++ (fdtPropText fdt name data ++ 10 :: next.text fdt depth))
  | node label name items next, depth =>
    fdtPrintNodeBegin label name depth ++ (items.text fdt (depth + 1) ++ (fdtPrintNodeEnd depth ++ next.text fdt depth))

mutual

def fdtListed (fdt : FdtTreeListing) : LabelledNode → FdtListed → FdtListed
  | .mk name label isNode data child, next =>
    if fdtLeftOut fdt name then next
    else if ¬ isNode ∧ child = [] then
      if name = cstr "phandle" ∧ fdt.keepPhandle = false then next else .prop name data next
    else .node label name (fdtListedChilds fdt child .nil) next

def fdtListedChilds (fdt : FdtTreeListing) : List LabelledNode → FdtListed → FdtListed
  | [], next => next
  | dev :: rest, next => fdtListed fdt dev (fdtListedChilds fdt rest next)

end

/-- Two listings that differ only behind the first 32 numbers of a value. -/
inductive FdtAlike (fdt : FdtListing) : FdtListed → FdtListed → Prop where
  | nil : FdtAlike fdt .nil .nil
  | prop {name : CString} {v w : List Byte} {next next' : FdtListed} (value : v = w ∨ FdtSameShown fdt name v w)
      (rest : FdtAlike fdt next next') : FdtAlike fdt (.prop name v next) (.prop name w next')
  | node {label name : CString} {items items' next next' : FdtListed} (inner : FdtAlike fdt items items')
      (rest : FdtAlike fdt next next') : FdtAlike fdt (.node label name items next) (.node label name items' next')

/-- Names without the characters that end them, and values whose text holds them whole. -/
def FdtListed.Plain (fdt : FdtListing) : FdtListed → Prop
  | nil => True
  | prop name data next =>
    ((32 : Byte) ∉ name ∧ (59 : Byte) ∉ name ∧ (10 : Byte) ∉ name) ∧ FdtPlain fdt name data ∧
      (fdt.incbin = true → data.take 8 = cstr "/incbin/" → (10 : Byte) ∉ data) ∧ next.Plain fdt
  | node label name items next =>
    (32 : Byte) ∉ label ∧ ((32 : Byte) ∉ name ∧ (58 : Byte) ∉ name) ∧ items.Plain fdt ∧ next.Plain fdt

/-- No value shows a phandle of another node. -/
def FdtListed.Unresolved (fdt : FdtListing) : FdtListed → Prop
  | nil => True
  | prop name data next => FdtUnresolved fdt name data ∧ next.Unresolved fdt
  | node _ _ items next => items.Unresolved fdt ∧ next.Unresolved fdt

section Lines

theorem token_line {t : CString} (token : IsToken isNumberChar t) : (10 : Byte) ∉ t :=
  fun member => absurd (token.2 10 member) (by decide)

theorem spaced_line {items : List CString} (lines : ∀ t ∈ items, (10 : Byte) ∉ t) : (10 : Byte) ∉ spaced items := by
  induction items with
  | nil => exact List.not_mem_nil
  | cons item rest ih =>
    have first := lines item List.mem_cons_self
    cases rest with
    | nil => rwa [spaced_singleton]
    | cons next rest =>
      have others := ih fun t member => lines t (List.mem_cons_of_mem _ member)
      rw [spaced_cons, List.mem_append, List.mem_cons]
      rintro (here | here | here)
      · exact first here
      · exact absurd here (by decide)
      · exact others here

theorem append_line {s t : CString} (first : (10 : Byte) ∉ s) (second : (10 : Byte) ∉ t) : (10 : Byte) ∉ s ++ t :=
  fun member => (List.mem_append.mp member).elim first second

theorem fdtStripedText_line (n : Nat) : (10 : Byte) ∉ fdtStripedText n := by
  rw [fdtStripedText]
  exact append_line (append_line (by decide) (token_line (decimal_token n))) (by decide)

theorem fdtPropPrintSimpleNumber_line (data : List Byte) : (10 : Byte) ∉ fdtPropPrintSimpleNumber data := by
  rw [fdtPropPrintSimpleNumber]
  split
  · have numbers : ∀ base, ∀ t ∈ ((fdtCells data).take 32).map (fun n => fdtPropPrintNumberAutobase n base),
        (10 : Byte) ∉ t := by
      intro base t member
      obtain ⟨n, _, rfl⟩ := List.mem_map.mp member
      exact token_line (autobase_token n base)
    apply append_line (append_line (append_line (by decide) (spaced_line (numbers _))) _) (by decide)
    split
    · exact fdtStripedText_line _
    · exact List.not_mem_nil
  · have bytes : ∀ t ∈ (data.take 32).map (fun b => cstr "0x" ++ hexFixed 2 b.toNat), (10 : Byte) ∉ t := by
      intro t member
      obtain ⟨b, _, rfl⟩ := List.mem_map.mp member
      rw [cstr_hex]
      exact token_line (hex_token 2 b.toNat)
    apply append_line (append_line (append_line (by decide) (spaced_line bytes)) _) (by decide)
    split
    · exact append_line (by decide) (fdtStripedText_line _)
    · exact List.not_mem_nil

theorem zeroPhandles_line (count : Nat) : (10 : Byte) ∉ zeroPhandles count := by
  induction count with
  | zero => exact List.not_mem_nil
  | succ count ih => exact append_line (by decide) ih

theorem isprint_line {c : Byte} (shown : isprint c = true) : c ≠ 10 := by
  rintro rfl
  exact absurd shown (by decide)

theorem fdtMultiStringsText_line {data : List Byte} (checked : fdtMultiStringsCheck data = true) :
    (10 : Byte) ∉ fdtMultiStringsText data := by
  induction data with
  | nil => exact List.not_mem_nil
  | cons c rest ih =>
    cases rest with
    | nil =>
      rw [fdtMultiStringsCheck, decide_eq_true_eq] at checked
      rw [fdtMultiStringsText]
      split
      · decide
      · rename_i filled
        rw [List.mem_singleton]
        exact (isprint_line (checked.resolve_left filled)).symm
    | cons next rest =>
      rw [fdtMultiStringsCheck, Bool.and_eq_true] at checked
      rw [fdtMultiStringsText]
      apply append_line _ (ih checked.2)
      split
      · decide
      · rename_i filled
        rw [if_neg filled] at checked
        rw [List.mem_singleton]
        exact (isprint_line checked.1).symm

variable {fdt : FdtListing} {name : CString} {data : List Byte}

theorem fdtPropPrintSimpleValue_line {incbin : Bool} {text : CString}
    (feature : incbin = true → data.take 8 = cstr "/incbin/" → (10 : Byte) ∉ data)
    (printed : fdtPropPrintSimpleValue incbin data = some text) : (10 : Byte) ∉ text := by
  rw [fdtPropPrintSimpleValue] at printed
  split at printed
  · obtain rfl := Option.some.inj printed
    decide
  · split at printed
    · rename_i included
      obtain rfl := Option.some.inj printed
      have whole : (10 : Byte) ∉ data.takeWhile (· ≠ 0) :=
        fun member => feature included.1 included.2.1 ((List.takeWhile_prefix _).subset member)
      exact append_line (append_line (by decide) whole) (by decide)
    · rw [fdtPropPrintMultiStrings] at printed
      split at printed
      · cases printed
      · split at printed
        · rename_i checked
          obtain rfl := Option.some.inj printed
          exact append_line (by decide) (fdtMultiStringsText_line checked)
        · cases printed

theorem fdtPropText_line (plain : FdtPlain fdt name data)
    (feature : fdt.incbin = true → data.take 8 = cstr "/incbin/" → (10 : Byte) ∉ data) :
    (10 : Byte) ∉ fdtPropText fdt.unresolved name data := by
  rw [fdtPropText]
  cases simple : fdtPropPrintSimpleValue fdt.unresolved.incbin data with
  | some text => exact fdtPropPrintSimpleValue_line feature simple
  | none =>
    cases u32 : fdtPropPrintU32Number name data with
    | some text =>
      rw [fdtPropPrintU32Number] at u32
      split at u32
      · cases u32
      · obtain rfl := Option.some.inj u32
        exact append_line (append_line (by decide) (token_line (printInt_token _))) (by decide)
    | none =>
      cases reg : fdtPropPrintReg name data with
      | some text =>
        rw [fdtPropPrintReg] at reg
        split at reg
        · cases reg
        · obtain rfl := Option.some.inj reg
          apply append_line (append_line (by decide) (spaced_line _)) (by decide)
          intro t member
          obtain ⟨n, _, rfl⟩ := List.mem_map.mp member
          exact token_line (autobase_token n _)
      | none =>
        cases labels : fdtPropPrintLabels fdt.unresolved name data with
        | some text =>
          have whole := plain.phandles (by rw [labels]; rfl)
          obtain ⟨count, _, shape⟩ := fdtPropPrintLabels_zeros whole labels
          change (10 : Byte) ∉ text
          rw [shape]
          have rest : (10 : Byte) ∉ (62 : Byte) :: (zeroPhandles count ++ cstr ";") :=
            append_line (s := [62]) (by decide) (append_line (zeroPhandles_line count) (by decide))
          exact append_line (by decide) (append_line (by decide) rest)
        | none => exact fdtPropPrintSimpleNumber_line data

/-- The text of a value starts with the character that ends the name. -/
theorem fdtPropText_lead (plain : FdtPlain fdt name data) :
    ∃ c rest, fdtPropText fdt.unresolved name data = c :: rest ∧ (c = 32 ∨ c = 59) := by
  obtain ⟨form, printed⟩ := fdtPropText_printed plain
  generalize fdtPropText fdt.unresolved name data = text at printed
  have semicolon : cstr ";" = [59] := by decide
  have equals (opening : CString) (same : opening.head? = some 32) (rest : CString) :
      ∃ c more, opening ++ rest = c :: more ∧ (c = 32 ∨ c = 59) := by
    obtain ⟨more, rfl⟩ := List.head?_eq_some_iff.mp same
    exact ⟨32, more ++ rest, rfl, Or.inl rfl⟩
  cases printed with
  | empty => exact ⟨59, [], semicolon, Or.inr rfl⟩
  | incbin =>
    rw [List.append_assoc]
    exact equals _ (by decide) _
  | strings => exact equals _ (by decide) _
  | numbers => exact equals _ (by decide) _
  | bytes => exact equals _ (by decide) _

end Lines

section Decode

variable {fdt : FdtListing} {depth : Nat} {rest rest' : CString}

/-- What ends the lines of one depth: nothing, or the closing brace of a node around them. -/
def FdtLinesEnd (depth : Nat) (rest : CString) : Prop :=
  rest = [] ∨ ∃ outer more, outer < depth ∧ rest = fdtPrintNodeEnd outer ++ more

theorem cstr_newline : cstr "\n" = [10] := by decide

theorem cstr_close : cstr "\x7d;\n" = [125, 59, 10] := by decide

theorem cstr_open : cstr " \x7b\n" = [32, 123, 10] := by decide

theorem cstr_colon : cstr ": " = [58, 32] := by decide

theorem fdtIndent_deeper {outer : Nat} (inside : outer < depth) : ∃ more, fdtIndent depth = fdtIndent outer ++ 32 :: more := by
  have width : depth * 4 = outer * 4 + ((depth - outer) * 4 - 1 + 1) := by omega
  rw [fdtIndent, width, List.replicate_add, List.replicate_succ]
  exact ⟨_, rfl⟩

theorem stops_ne_prop (stops : FdtLinesEnd depth rest) {line : CString} (filled : line ≠ []) : rest ≠ fdtIndent depth ++ line := by
  rintro rfl
  obtain none | ⟨outer, more, inside, closed⟩ := stops
  · exact filled (List.append_eq_nil_iff.mp none).2
  · obtain ⟨blanks, deeper⟩ := fdtIndent_deeper inside
    rw [deeper, fdtPrintNodeEnd, cstr_close, List.append_assoc, List.append_assoc] at closed
    exact absurd (List.cons.inj (List.append_cancel_left closed)).1 (by decide)

theorem indent_ne_newline {line : CString} (filled : ∀ c more, line = c :: more → c ≠ 10) (more : CString) :
    fdtIndent depth ++ line ≠ 10 :: more := by
  intro same
  cases depth with
  | zero => exact filled 10 more (by rw [← same, fdtIndent, Nat.zero_mul, List.replicate_zero, List.nil_append]) rfl
  | succ depth =>
    obtain ⟨blanks, deeper⟩ := fdtIndent_deeper (Nat.succ_pos depth)
    rw [deeper, fdtIndent, Nat.zero_mul, List.replicate_zero, List.nil_append, List.cons_append] at same
    exact absurd (List.cons.inj same).1 (by decide)

theorem stops_ne_node (stops : FdtLinesEnd depth rest) (more : CString) : rest ≠ 10 :: more := by
  rintro rfl
  obtain none | ⟨outer, behind, inside, closed⟩ := stops
  · cases none
  · rw [fdtPrintNodeEnd, cstr_close, List.append_assoc] at closed
    apply indent_ne_newline _ more closed.symm
    intro c more same
    rw [← (List.cons.inj same).1]
    decide

theorem propLine_inj {name name' : CString} {v w : List Byte} (clean : (32 : Byte) ∉ name ∧ (59 : Byte) ∉ name ∧ (10 : Byte) ∉ name)
    (clean' : (32 : Byte) ∉ name' ∧ (59 : Byte) ∉ name' ∧ (10 : Byte) ∉ name') (plain : FdtPlain fdt name v)
    (plain' : FdtPlain fdt name' w) (feature : fdt.incbin = true → v.take 8 = cstr "/incbin/" → (10 : Byte) ∉ v)
    (feature' : fdt.incbin = true → w.take 8 = cstr "/incbin/" → (10 : Byte) ∉ w)
    (same : name ++ (fdtPropText fdt.unresolved name v ++ 10 :: rest) =
      name' ++ (fdtPropText fdt.unresolved name' w ++ 10 :: rest')) :
    name = name' ∧ fdtPropText fdt.unresolved name v = fdtPropText fdt.unresolved name' w ∧ rest = rest' := by
  have ends {name : CString} (clean : (32 : Byte) ∉ name ∧ (59 : Byte) ∉ name ∧ (10 : Byte) ∉ name) :
      ∀ c ∈ name, (c != 32 && c != 59) = true := by
    intro c member
    have blank : c ≠ 32 := fun here => clean.1 (here ▸ member)
    have semicolon : c ≠ 59 := fun here => clean.2.1 (here ▸ member)
    exact Bool.and_eq_true_iff.mpr ⟨bne_iff_ne.mpr blank, bne_iff_ne.mpr semicolon⟩
  have stop {c : Byte} (lead : c = 32 ∨ c = 59) : (c != 32 && c != 59) = false := by
    obtain rfl | rfl := lead
    · decide
    · decide
  have line {text : CString} (clear : (10 : Byte) ∉ text) : ∀ c ∈ text, (c != 10) = true := by
    intro c member
    exact bne_iff_ne.mpr fun here => clear (here ▸ member)
  obtain ⟨c, more, shape, lead⟩ := fdtPropText_lead plain
  obtain ⟨c', more', shape', lead'⟩ := fdtPropText_lead plain'
  have names : name = name' := by
    rw [shape, shape', List.cons_append, List.cons_append] at same
    exact (field_ends (ends clean) (ends clean') (stop lead) (stop lead') same).1
  obtain rfl := names
  obtain ⟨texts, _, rests⟩ := field_ends (line (fdtPropText_line plain feature)) (line (fdtPropText_line plain' feature'))
    (by decide) (by decide) (List.append_cancel_left same)
  exact ⟨rfl, texts, rests⟩

theorem nodeLine_inj {label label' name name' : CString} (clean : (32 : Byte) ∉ label) (clean' : (32 : Byte) ∉ label')
    (named : (32 : Byte) ∉ name ∧ (58 : Byte) ∉ name) (named' : (32 : Byte) ∉ name' ∧ (58 : Byte) ∉ name')
    (same : fdtPrintNodeBegin label name depth ++ rest = fdtPrintNodeBegin label' name' depth ++ rest') :
    label = label' ∧ name = name' ∧ rest = rest' := by
  have word {w : CString} (clear : (32 : Byte) ∉ w) : ∀ c ∈ w, (c != 32) = true := by
    intro c member
    exact bne_iff_ne.mpr fun here => clear (here ▸ member)
  have labelWord {label : CString} (clear : (32 : Byte) ∉ label) : (32 : Byte) ∉ label ++ [58] :=
    fun member => (List.mem_append.mp member).elim clear (by decide)
  have plainHead (name : CString) (rest : CString) : fdtPrintNodeBegin [] name depth ++ rest =
      cstr "\n" ++ fdtIndent depth ++ (name ++ 32 :: (123 :: 10 :: rest)) := by
    rw [fdtPrintNodeBegin, if_pos rfl, cstr_open]
    simp only [List.append_assoc, List.cons_append, List.nil_append]
  have labelHead {label : CString} (given : label ≠ []) (name rest : CString) : fdtPrintNodeBegin label name depth ++ rest =
      cstr "\n" ++ fdtIndent depth ++ ((label ++ [58]) ++ 32 :: (name ++ 32 :: (123 :: 10 :: rest))) := by
    rw [fdtPrintNodeBegin, if_neg given, cstr_open, cstr_colon]
    simp only [List.append_assoc, List.cons_append, List.nil_append]
  by_cases none : label = []
  · by_cases none' : label' = []
    · rw [none, none', plainHead, plainHead] at same
      obtain ⟨names, _, rests⟩ := field_ends (word named.1) (word named'.1) (by decide) (by decide)
        (List.append_cancel_left same)
      exact ⟨none.trans none'.symm, names, (List.cons.inj (List.cons.inj rests).2).2⟩
    · rw [none, plainHead, labelHead none'] at same
      obtain ⟨names, _⟩ := field_ends (word named.1) (word (labelWord clean')) (by decide) (by decide)
        (List.append_cancel_left same)
      exact absurd (names ▸ List.mem_append_right _ List.mem_cons_self) named.2
  · by_cases none' : label' = []
    · rw [none', plainHead, labelHead none] at same
      obtain ⟨names, _⟩ := field_ends (word (labelWord clean)) (word named'.1) (by decide) (by decide)
        (List.append_cancel_left same)
      exact absurd (names ▸ List.mem_append_right _ List.mem_cons_self) named'.2
    · rw [labelHead none, labelHead none'] at same
      obtain ⟨labels, _, names⟩ := field_ends (word (labelWord clean)) (word (labelWord clean')) (by decide) (by decide)
        (List.append_cancel_left same)
      obtain ⟨names, _, rests⟩ := field_ends (word named.1) (word named'.1) (by decide) (by decide) names
      exact ⟨List.append_cancel_right labels, names, (List.cons.inj (List.cons.inj rests).2).2⟩

theorem FdtListed.text_prop (name : CString) (data : List Byte) (next : FdtListed) (rest : CString) :
    (FdtListed.prop name data next).text fdt depth ++ rest =
      fdtIndent depth ++ (name ++ (fdtPropText fdt name data ++ 10 :: (next.text fdt depth ++ rest))) := by
  simp only [FdtListed.text, List.append_assoc, List.cons_append]

theorem FdtListed.text_node (label name : CString) (items next : FdtListed) (rest : CString) :
    (FdtListed.node label name items next).text fdt depth ++ rest = fdtPrintNodeBegin label name depth ++
      (items.text fdt (depth + 1) ++ (fdtPrintNodeEnd depth ++ (next.text fdt depth ++ rest))) := by
  simp only [FdtListed.text, List.append_assoc]

theorem fdtPrintNodeBegin_head (label name more : CString) (depth : Nat) :
    ∃ tail, fdtPrintNodeBegin label name depth ++ more = 10 :: tail := by
  rw [fdtPrintNodeBegin, cstr_newline]
  exact ⟨_, rfl⟩

theorem propLine_ne_nil (name text more : CString) : name ++ (text ++ 10 :: more) ≠ [] := by
  rw [← List.append_assoc]
  exact List.append_ne_nil_of_right_ne_nil _ (List.cons_ne_nil _ _)

theorem propLine_ne_newline {name : CString} {data : List Byte} (clean : (10 : Byte) ∉ name) (plain : FdtPlain fdt name data)
    (more tail : CString) : fdtIndent depth ++ (name ++ (fdtPropText fdt.unresolved name data ++ more)) ≠ 10 :: tail := by
  apply indent_ne_newline
  obtain ⟨c, behind, shape, lead⟩ := fdtPropText_lead plain
  intro d others same
  rw [shape] at same
  cases name with
  | nil =>
    rw [← (List.cons.inj same).1]
    obtain rfl | rfl := lead
    · decide
    · decide
  | cons first name =>
    rw [← (List.cons.inj same).1]
    exact fun here => clean (here ▸ List.mem_cons_self)

/-- The text of a value determines it as far as it is shown. -/
theorem propText_inj {name : CString} {v w : List Byte} (plain : FdtPlain fdt name v) (plain' : FdtPlain fdt name w)
    (same : fdtPropText fdt.unresolved name v = fdtPropText fdt.unresolved name w) : v = w ∨ FdtSameShown fdt name v w := by
  obtain ⟨form, printed⟩ := fdtPropText_printed plain
  obtain ⟨form', printed'⟩ := fdtPropText_printed plain'
  rw [same] at printed
  exact printed.inj printed'

/-- By the first character that differs, line by line; the lines of a node end at its brace. -/
theorem text_inj {xs ys : FdtListed} (plain : xs.Plain fdt) (plain' : ys.Plain fdt) (stops : FdtLinesEnd depth rest)
    (stops' : FdtLinesEnd depth rest') (same : xs.text fdt.unresolved depth ++ rest = ys.text fdt.unresolved depth ++ rest') :
    FdtAlike fdt xs ys ∧ rest = rest' := by
  induction xs generalizing ys depth rest rest' with
  | nil =>
    cases ys with
    | nil => exact ⟨.nil, same⟩
    | prop name data next =>
      rw [FdtListed.text_prop] at same
      exact absurd same (stops_ne_prop stops (propLine_ne_nil _ _ _))
    | node label name items next =>
      obtain ⟨tail, begins⟩ := fdtPrintNodeBegin_head label name (items.text fdt.unresolved (depth + 1) ++
        (fdtPrintNodeEnd depth ++ (next.text fdt.unresolved depth ++ rest'))) depth
      rw [FdtListed.text_node, begins] at same
      exact absurd same (stops_ne_node stops tail)
  | prop name data next ih =>
    obtain ⟨clean, value, feature, others⟩ := plain
    cases ys with
    | nil =>
      rw [FdtListed.text_prop] at same
      exact absurd same.symm (stops_ne_prop stops' (propLine_ne_nil _ _ _))
    | prop name' data' next' =>
      obtain ⟨clean', value', feature', others'⟩ := plain'
      rw [FdtListed.text_prop, FdtListed.text_prop] at same
      obtain ⟨rfl, texts, tails⟩ :=
        propLine_inj clean clean' value value' feature feature' (List.append_cancel_left same)
      obtain ⟨alike, ends⟩ := ih others others' stops stops' tails
      exact ⟨.prop (propText_inj value value' texts) alike, ends⟩
    | node label' name' items' next' =>
      obtain ⟨tail, begins⟩ := fdtPrintNodeBegin_head label' name' (items'.text fdt.unresolved (depth + 1) ++
        (fdtPrintNodeEnd depth ++ (next'.text fdt.unresolved depth ++ rest'))) depth
      rw [FdtListed.text_prop, FdtListed.text_node, begins] at same
      exact absurd same (propLine_ne_newline clean.2.2 value _ tail)
  | node label name items next inner ih =>
    obtain ⟨labelled, named, within, others⟩ := plain
    obtain ⟨tail, begins⟩ := fdtPrintNodeBegin_head label name (items.text fdt.unresolved (depth + 1) ++
      (fdtPrintNodeEnd depth ++ (next.text fdt.unresolved depth ++ rest))) depth
    cases ys with
    | nil =>
      rw [FdtListed.text_node, begins] at same
      exact absurd same.symm (stops_ne_node stops' tail)
    | prop name' data' next' =>
      obtain ⟨clean', value', -, -⟩ := plain'
      rw [FdtListed.text_node, begins, FdtListed.text_prop] at same
      exact absurd same.symm (propLine_ne_newline clean'.2.2 value' _ tail)
    | node label' name' items' next' =>
      obtain ⟨labelled', named', within', others'⟩ := plain'
      rw [FdtListed.text_node, FdtListed.text_node] at same
      obtain ⟨rfl, rfl, blocks⟩ := nodeLine_inj labelled labelled' named named' same
      have closes (more : CString) : FdtLinesEnd (depth + 1) (fdtPrintNodeEnd depth ++ more) :=
        Or.inr ⟨depth, more, Nat.lt_succ_self depth, rfl⟩
      obtain ⟨alike, tails⟩ := inner within within' (closes _) (closes _) blocks
      obtain ⟨further, ends⟩ := ih others others' stops stops' (List.append_cancel_left tails)
      exact ⟨.node alike further, ends⟩

theorem text_of_alike {xs ys : FdtListed} (alike : FdtAlike fdt xs ys) :
    xs.text fdt.unresolved depth = ys.text fdt.unresolved depth := by
  induction alike generalizing depth with
  | nil => rfl
  | @prop name v w next next' value rest ih =>
    have texts : fdtPropText fdt.unresolved name v = fdtPropText fdt.unresolved name w := by
      obtain rfl | shown := value
      · rfl
      · rw [fdtPropText_plain shown.left, fdtPropText_plain shown.right, fdtPropPrintSimpleNumber_shown shown]
    rw [FdtListed.text, FdtListed.text, texts, ih]
  | node inner rest ih ih' => rw [FdtListed.text, FdtListed.text, ih, ih']

theorem text_unresolved {xs : FdtListed} (alone : xs.Unresolved fdt) : xs.text fdt depth = xs.text fdt.unresolved depth := by
  induction xs generalizing depth with
  | nil => rfl
  | prop name data next ih =>
    have text : fdtPropText fdt name data = fdtPropText fdt.unresolved name data := alone.1
    rw [FdtListed.text, FdtListed.text, text, ih alone.2]
  | node label name items next ih ih' => rw [FdtListed.text, FdtListed.text, ih alone.1, ih' alone.2]

end Decode

section Listing

variable {fdt fdt' : FdtTreeListing} {depth : Nat}

mutual

/-- The listing of a tree is the text of its lines. -/
theorem fdtListNode_text (direct : ∀ name, fdtAliased fdt name = false) (t : LabelledNode) (next : FdtListed) (depth : Nat) :
    (fdtListed fdt t next).text fdt.toFdtListing depth = fdtListNode fdt t depth ++ next.text fdt.toFdtListing depth := by
  cases t with
  | mk name label isNode data child =>
    rw [fdtListed, fdtListNode]
    split
    · rfl
    · split
      · rw [fdtListNodeProp]
        split
        · rfl
        · simp only [FdtListed.text, fdtIndent, List.append_assoc, List.cons_append, List.nil_append]
      · have lines := fdtListChilds_text direct child .nil (depth + 1)
        rw [FdtListed.text, List.append_nil] at lines
        rw [FdtListed.text, lines, direct, if_neg Bool.false_ne_true]
        simp only [List.append_assoc]

theorem fdtListChilds_text (direct : ∀ name, fdtAliased fdt name = false) (child : List LabelledNode) (next : FdtListed)
    (depth : Nat) : (fdtListedChilds fdt child next).text fdt.toFdtListing depth =
      fdtListChilds fdt child depth ++ next.text fdt.toFdtListing depth := by
  cases child with
  | nil => rfl
  | cons dev rest =>
    rw [fdtListedChilds, fdtListChilds, fdtListNode_text direct dev, fdtListChilds_text direct rest, List.append_assoc]

end

theorem fdtAliased_direct (direct : fdt.keepSymbols = true ∨ fdt.root.findByname FDT_SYMBOLS_NAME = none) (name : CString) :
    fdtAliased fdt name = false := by
  rw [fdtAliased]
  obtain kept | none := direct
  · rw [kept, Bool.not_true, Bool.and_false, Bool.false_and]
  · rw [none, Option.isSome_none, Bool.and_false]

/-- A tree whose text can be read: no entry of `aliases` and no phandle stands for another node in it. -/
structure FdtListable (fdt : FdtTreeListing) (base : FdtListing) (t : LabelledNode) : Prop where
  flags : fdt.toFdtListing.unresolved = base
  direct : fdt.keepSymbols = true ∨ fdt.root.findByname FDT_SYMBOLS_NAME = none
  alone : (fdtListed fdt t .nil).Unresolved fdt.toFdtListing
  plain : (fdtListed fdt t .nil).Plain base

theorem FdtListable.text {base : FdtListing} {t : LabelledNode} (listable : FdtListable fdt base t) (depth : Nat) :
    fdtListNode fdt t depth = (fdtListed fdt t .nil).text base.unresolved depth := by
  have lines := fdtListNode_text (fdtAliased_direct listable.direct) t .nil depth
  rw [text_unresolved listable.alone, FdtListed.text, List.append_nil] at lines
  rw [← lines, ← listable.flags]
  rfl

/-- With the phandle printers off, no value shows another node. -/
theorem unresolved_verbose {fdt : FdtListing} (verbose : fdt.verboseLevel ≠ 0) (xs : FdtListed) : xs.Unresolved fdt := by
  have plain (name : CString) (data : List Byte) : FdtUnresolved fdt name data := by
    have off : fdt.unresolved.verboseLevel ≠ 0 := verbose
    rw [FdtUnresolved, fdtPropText, fdtPropText, fdtPropPrintLabels, fdtPropPrintLabels, if_neg verbose, if_neg off]
    rfl
  induction xs with
  | nil => trivial
  | prop name data next ih => exact ⟨plain name data, ih⟩
  | node label name items next ih ih' => exact ⟨ih, ih'⟩

def verboseListing (root : LabelledNode) : FdtTreeListing :=
  ⟨⟨true, false, 1, fun _ _ _ _ => none⟩, true, true, false, root, none⟩

def statusNode (status : List Byte) : LabelledNode := .mk [47] [] true [] [.mk (cstr "uart") (cstr "serial0") true []
  [.mk (cstr "status") [] false status []]]

theorem statusNode_lines (status : List Byte) : fdtListed (verboseListing (statusNode status)) (statusNode status) .nil =
    .node [] [47] (.node (cstr "serial0") (cstr "uart") (.prop (cstr "status") status .nil) .nil) .nil := rfl

theorem statusNode_listable {status : List Byte} (clean : (34 : Byte) ∉ status)
    (phandles : fdtPropPrintLabels ⟨true, false, 1, fun _ _ _ _ => none⟩ (cstr "status") status = none) :
    FdtListable (verboseListing (statusNode status)) ⟨true, false, 1, fun _ _ _ _ => none⟩ (statusNode status) where
  flags := rfl
  direct := Or.inl rfl
  alone := unresolved_verbose Nat.one_ne_zero _
  plain := by
    rw [statusNode_lines]
    refine ⟨by decide, by decide, ⟨by decide, by decide,
      ⟨by decide, ⟨fun _ => clean, fun on => absurd on Bool.false_ne_true, ?_⟩,
        fun on => absurd on Bool.false_ne_true, trivial⟩, trivial⟩, trivial⟩
    intro labels
    rw [FdtListing.unresolved, phandles] at labels
    cases labels

end Listing

end ImgEditor
