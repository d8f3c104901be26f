import ImgEditor.Core.Structure
import ImgEditor.Fdt.DeviceTree

namespace ImgEditor

open Storage CText

/-- A node or a property of a `struct device_node` tree. -/
inductive LabelledNode where
  | mk (name label : CString) (isNode : Bool) (data : List Byte) (child : List LabelledNode)

namespace LabelledNode

def label : LabelledNode → CString
  | mk _ label _ _ _ => label

mutual

def unlabelled : LabelledNode → DeviceNode
  | mk name _ isNode data child => .mk name isNode data (unlabelledChild child)

def unlabelledChild : List LabelledNode → List DeviceNode
  | [] => []
  | node :: rest => node.unlabelled :: unlabelledChild rest

end

def name : LabelledNode → CString
  | mk name _ _ _ _ => name

def isNode : LabelledNode → Bool
  | mk _ _ isNode _ _ => isNode

def data : LabelledNode → List Byte
  | mk _ _ _ data _ => data

def child : LabelledNode → List LabelledNode
  | mk _ _ _ _ child => child

def findByname (root : LabelledNode) (name : CString) : Option LabelledNode :=
  root.child.find? fun node => decide (node.name = name)

def findBypath (root : LabelledNode) (path : CString) : Option LabelledNode :=
  (argvBufferSplitWithDelim path [47#8] FDT_MAX_DEPTH).foldlM findByname root

/-- The path in the data of a symbol or an alias, as it is printed to `char devpath[256]`. -/
def devpath (node : LabelledNode) : CString := (node.data.takeWhile (· ≠ 0#8)).take 255

/-- The node at a place: the index of a child at each level. -/
def at_ : List Nat → LabelledNode → Option LabelledNode
  | [], node => some node
  | k :: place, node => node.child[k]?.bind (at_ place)

/-- Where `device_node_find_bypath` ends. -/
def placeOf : List CString → LabelledNode → Option (List Nat)
  | [], _ => some []
  | step :: path, node => do
    let k ← node.child.findIdx? fun node => decide (node.name = step)
    let next ← node.child[k]?
    let place ← placeOf path next
    return k :: place

def setLabel (label : CString) : List Nat → LabelledNode → LabelledNode
  | [], mk name _ isNode data child => mk name label isNode data child
  | k :: place, mk name own isNode data child => mk name own isNode data (child.modify k (setLabel label place))

/-- The place that the path of a symbol names. -/
def symbolPlace (root sym : LabelledNode) : Option (List Nat) :=
  placeOf (argvBufferSplitWithDelim sym.devpath [47#8] FDT_MAX_DEPTH) root

end LabelledNode

/-- `device_node_match_phandle` returned zero. -/
def deviceNodeMatchPhandle (node : DeviceNode) (phandle : BitVec 32) : Bool :=
  node.child.any fun prop => prop.name = cstr "phandle" ∧ deviceNodeReadU32 prop = some phandle

mutual

def deviceNodeSearchPhandle (phandle : BitVec 32) : LabelledNode → Option LabelledNode
  | .mk _ _ _ _ child => searchPhandle phandle child

def searchPhandle (phandle : BitVec 32) : List LabelledNode → Option LabelledNode
  | [] => none
  | node :: rest =>
    if deviceNodeMatchPhandle node.unlabelled phandle then some node
    else
      match deviceNodeSearchPhandle phandle node with
      | some matched => some matched
      | none => searchPhandle phandle rest

end

section Search

variable {phandle : BitVec 32}

theorem searchPhandle_match {node : LabelledNode} (matched : deviceNodeMatchPhandle node.unlabelled phandle = true)
    (rest : List LabelledNode) : searchPhandle phandle (node :: rest) = some node := by
  rw [searchPhandle, if_pos matched]

theorem searchPhandle_other {node : LabelledNode} (other : deviceNodeMatchPhandle node.unlabelled phandle = false)
    (none : deviceNodeSearchPhandle phandle node = none) (rest : List LabelledNode) :
    searchPhandle phandle (node :: rest) = searchPhandle phandle rest := by
  rw [searchPhandle, if_neg (by simp [other]), none]

end Search

def FDT_SYMBOLS_NAME : CString := cstr "__symbols__"

/-- One symbol of `fdt_load_symbols`; a target that is not found is left. -/
def fdtLoadSymbol (root sym : LabelledNode) : LabelledNode :=
  match root.symbolPlace sym with
  | none => root
  | some place => root.setLabel (sym.name.take 63) place

def fdtLoadSymbols (root : LabelledNode) : LabelledNode :=
  match root.findByname FDT_SYMBOLS_NAME with
  | none => root
  | some symbols => symbols.child.foldl fdtLoadSymbol root

section Symbols

open LabelledNode

variable {root root' node : LabelledNode} {place : List Nat} {label : CString}

theorem LabelledNode.unlabelledChild_eq (child : List LabelledNode) : unlabelledChild child = child.map unlabelled := by
  induction child with
  | nil => rfl
  | cons node rest ih => rw [unlabelledChild, ih, List.map_cons]

theorem LabelledNode.unlabelled_child (node : LabelledNode) : node.unlabelled.child = node.child.map unlabelled := by
  cases node with
  | mk name label isNode data child => exact unlabelledChild_eq child

theorem LabelledNode.unlabelled_name (node : LabelledNode) : node.unlabelled.name = node.name := by
  cases node
  rfl

theorem LabelledNode.child_congr (same : root'.unlabelled = root.unlabelled) :
    root'.child.map unlabelled = root.child.map unlabelled := by
  rw [← unlabelled_child, same, unlabelled_child]

/-- The place of a path is that of the node that `device_node_find_bypath` finds. -/
theorem LabelledNode.placeOf_find (path : List CString) (root : LabelledNode) :
    path.foldlM findByname root = (placeOf path root).bind fun place => root.at_ place := by
  induction path generalizing root with
  | nil => rfl
  | cons step path ih =>
    rw [List.foldlM_cons, findByname, List.find?_eq_bind_findIdx?_getElem?, placeOf]
    cases root.child.findIdx? fun node => decide (node.name = step) with
    | none => rfl
    | some k =>
      change (root.child[k]?).bind _ = Option.bind (Option.bind root.child[k]? _) _
      cases here : root.child[k]? with
      | none => rfl
      | some next =>
        change path.foldlM findByname next = Option.bind (Option.bind (placeOf path next) _) _
        rw [ih]
        cases placeOf path next with
        | none => rfl
        | some place =>
          change next.at_ place = (root.child[k]?).bind (at_ place)
          rw [here]
          rfl

/-- The labels do not decide where a path ends. -/
theorem LabelledNode.placeOf_congr {path : List CString} (same : root'.unlabelled = root.unlabelled) :
    placeOf path root' = placeOf path root := by
  induction path generalizing root root' with
  | nil => rfl
  | cons step path ih =>
    have children := child_congr same
    have names (node : LabelledNode) : node.child.findIdx? (fun node => decide (node.name = step)) =
        (node.child.map unlabelled).findIdx? fun node => decide (node.name = step) := by
      rw [List.findIdx?_map]
      congr 1
      funext node
      rw [Function.comp_apply, unlabelled_name]
    rw [placeOf, placeOf, names, names, children]
    congr 1
    funext k
    have kth := congrArg (·[k]?) children
    simp only [List.getElem?_map] at kth
    cases here : root'.child[k]? with
    | none =>
      rw [here] at kth
      rw [Option.map_eq_none_iff.mp kth.symm]
    | some next =>
      rw [here] at kth
      obtain ⟨next', there, equal⟩ := Option.map_eq_some_iff.mp kth.symm
      rw [there]
      change (placeOf path next).bind _ = (placeOf path next').bind _
      rw [ih equal.symm]

theorem LabelledNode.setLabel_unlabelled (label : CString) (place : List Nat) (root : LabelledNode) :
    (root.setLabel label place).unlabelled = root.unlabelled := by
  induction place generalizing root with
  | nil => cases root; rfl
  | cons k place ih =>
    cases root with
    | mk name own isNode data child =>
      have children : (child.modify k (setLabel label place)).map unlabelled = child.map unlabelled := by
        apply List.ext_getElem?
        intro j
        rw [List.getElem?_map, List.getElem?_map, List.getElem?_modify, Option.map_eq_map, Option.map_map]
        congr 1
        funext node
        by_cases here : k = j
        · rw [Function.comp_apply, if_pos here, ih]
        · rw [Function.comp_apply, if_neg here]
      rw [setLabel, unlabelled, unlabelled, unlabelledChild_eq, unlabelledChild_eq, children]

/-- Only the node at the place is labelled anew. -/
theorem LabelledNode.setLabel_label (label : CString) (place other : List Nat) (root : LabelledNode) :
    ((root.setLabel label place).at_ other).map LabelledNode.label =
      (root.at_ other).map fun node => if other = place then label else node.label := by
  induction place generalizing root other with
  | nil =>
    cases root
    cases other with
    | nil => rfl
    | cons j other =>
      simp only [setLabel, at_, LabelledNode.child, reduceCtorEq, if_false]
  | cons k place ih =>
    cases root with
    | mk name own isNode data child =>
      cases other with
      | nil => rfl
      | cons j other =>
        rw [setLabel, at_, at_, LabelledNode.child, LabelledNode.child, List.getElem?_modify, Option.map_eq_map]
        cases child[j]? with
        | none => rfl
        | some node =>
          rw [Option.map_some, Option.bind_some, Option.bind_some]
          by_cases here : k = j
          · rw [if_pos here, ih, here]
            simp only [List.cons.injEq, true_and]
          · have apart : ∀ node : LabelledNode, (if j :: other = k :: place then label else node.label) = node.label :=
              fun node => if_neg fun same => here (List.cons.inj same).1.symm
            simp only [if_neg here, apart]

theorem fdtLoadSymbol_unlabelled (root sym : LabelledNode) : (fdtLoadSymbol root sym).unlabelled = root.unlabelled := by
  rw [fdtLoadSymbol]
  split
  · rfl
  · exact setLabel_unlabelled _ _ _

theorem fdtLoadSymbol_label (root sym : LabelledNode) (place : List Nat) :
    ((fdtLoadSymbol root sym).at_ place).map LabelledNode.label =
      (root.at_ place).map fun node => if root.symbolPlace sym = some place then sym.name.take 63 else node.label := by
  rw [fdtLoadSymbol]
  split
  · rename_i missing
    simp only [missing, reduceCtorEq, if_false]
  · rename_i found ends
    rw [setLabel_label, ends]
    simp only [Option.some.injEq, eq_comm]

theorem symbolPlace_congr (same : root'.unlabelled = root.unlabelled) (sym : LabelledNode) :
    root'.symbolPlace sym = root.symbolPlace sym := placeOf_congr same

theorem loadSymbols_unlabelled (symbols : List LabelledNode) (root : LabelledNode) :
    (symbols.foldl fdtLoadSymbol root).unlabelled = root.unlabelled := by
  induction symbols generalizing root with
  | nil => rfl
  | cons sym symbols ih => rw [List.foldl_cons, ih, fdtLoadSymbol_unlabelled]

/-- The last symbol of a node gives it its label. -/
theorem loadSymbols_label (symbols : List LabelledNode) (root : LabelledNode) (place : List Nat) :
    ((symbols.foldl fdtLoadSymbol root).at_ place).map LabelledNode.label = (root.at_ place).map fun node =>
      (symbols.filter fun sym => root.symbolPlace sym = some place).getLast?.elim node.label fun sym => sym.name.take 63 := by
  induction symbols generalizing root with
  | nil => rfl
  | cons sym symbols ih =>
    have first := fdtLoadSymbol_label root sym place
    have places (other : LabelledNode) : (fdtLoadSymbol root sym).symbolPlace other = root.symbolPlace other :=
      symbolPlace_congr (fdtLoadSymbol_unlabelled root sym) other
    rw [List.foldl_cons, ih]
    simp only [places]
    rw [List.filter_cons]
    generalize symbols.filter (fun sym => root.symbolPlace sym = some place) = others
    cases last : others.getLast? with
    | none =>
      rw [List.getLast?_eq_none_iff.mp last]
      change ((fdtLoadSymbol root sym).at_ place).map LabelledNode.label = _
      rw [first]
      by_cases here : root.symbolPlace sym = some place
      · simp [here]
      · simp [here]
    | some final =>
      have kept : (if root.symbolPlace sym = some place then sym :: others else others).getLast? = some final := by
        split
        · rw [List.getLast?_cons, last, Option.getD_some]
        · exact last
      have there := congrArg Option.isSome first
      rw [Option.isSome_map, Option.isSome_map] at there
      simp only [kept, decide_eq_true_eq]
      cases before : root.at_ place with
      | none =>
        rw [before, Option.isSome_none, Option.isSome_eq_false_iff, Option.isNone_iff_eq_none] at there
        rw [there]
      | some node =>
        rw [before, Option.isSome_some, Option.isSome_iff_exists] at there
        obtain ⟨node', after⟩ := there
        rw [after]
        rfl

/-- The symbols that `fdt_load_symbols` goes through. -/
def LabelledNode.symbols (root : LabelledNode) : List LabelledNode :=
  ((root.findByname FDT_SYMBOLS_NAME).map LabelledNode.child).getD []

theorem fdtLoadSymbols_eq (root : LabelledNode) : fdtLoadSymbols root = root.symbols.foldl fdtLoadSymbol root := by
  rw [fdtLoadSymbols, LabelledNode.symbols]
  split
  · rename_i missing
    rw [missing]
    rfl
  · rename_i symbols found
    rw [found]
    rfl

/-- Labels change and nothing else; a node has the name of the last symbol whose path ends at it. -/
theorem fdtLoadSymbols_labels (root : LabelledNode) : (fdtLoadSymbols root).unlabelled = root.unlabelled ∧
    ∀ place, ((fdtLoadSymbols root).at_ place).map LabelledNode.label = (root.at_ place).map fun node =>
      (root.symbols.filter fun sym => root.symbolPlace sym = some place).getLast?.elim node.label fun sym =>
        sym.name.take 63 := by
  rw [fdtLoadSymbols_eq]
  exact ⟨loadSymbols_unlabelled _ _, loadSymbols_label _ _⟩

end Symbols

end ImgEditor
