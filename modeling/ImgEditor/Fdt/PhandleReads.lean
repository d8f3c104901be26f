import ImgEditor.Fdt.LabelTree
import ImgEditor.Fdt.ListProp

namespace ImgEditor

open Storage CText

/-- What `_fdt_prop_print_phandles` looks at besides the value. -/
structure FdtPhandles where
  root : LabelledNode
  isDtbo : Bool
  dtboExtern : Option LabelledNode

def phandleIsDtboExtern (phandle : BitVec 32) : Bool := phandle >>> 12 = 0xdeadb

def deviceNodeReadCells (node : LabelledNode) (cellName : CString) : Option (BitVec 32) :=
  (deviceNodeFindByname node.unlabelled cellName).bind deviceNodeReadU32

/-- The target of a phandle; `outside` when a cell behind the value has been read. -/
inductive PhandleTarget where
  | outside
  | refused
  | found (label : CString) (cellSize : BitVec 32)

/-- The loop that counts the cells up to the next extern phandle, from the cell at `pp` on. -/
def countCells (data : List Byte) (sz : Nat) : Nat → Nat → Nat → BitVec 32 → Option (BitVec 32)
  | 0, _, _, _ => none
  | fuel + 1, i, pp, cellSize =>
    match fdt32 data pp with
    | none => none
    | some n => if ¬ phandleIsDtboExtern n ∧ i < sz then countCells data sz fuel (i + 4) (pp + 4) (cellSize + 1) else some cellSize

def checkTarget (fdt : FdtPhandles) (cellName : Option CString) (cellSize : BitVec 32) :
    Option LabelledNode → PhandleTarget
  | none => .refused
  | some target =>
    if target.label = [] then .refused
    else
      match fdt.isDtbo, cellName with
      | false, some cellName =>
        match deviceNodeReadCells target cellName with
        | none => .refused
        | some cellSize => .found target.label cellSize
      | _, _ => .found target.label cellSize

/-- The target of the phandle in front of `p`, where `sz` bytes are left. -/
def phandleTarget (fdt : FdtPhandles) (cellName : Option CString) (fixCellSize : Nat) (data : List Byte)
    (phandle : BitVec 32) (p sz : Nat) : PhandleTarget :=
  let cellSize := BitVec.ofNat 32 fixCellSize
  match deviceNodeSearchPhandle phandle fdt.root, fdt.isDtbo, fdt.dtboExtern with
  | some target, _, _ => checkTarget fdt cellName cellSize (some target)
  | none, true, some ext =>
    match deviceNodeSearchPhandle phandle ext with
    | none => checkTarget fdt cellName cellSize none
    | some target =>
      if cellSize ≠ 0 then checkTarget fdt cellName cellSize (some target)
      else
        match countCells data sz (data.length + 1) 0 p cellSize with
        | none => .outside
        | some cellSize => checkTarget fdt cellName cellSize (some target)
  | none, _, _ => checkTarget fdt cellName cellSize none

inductive PhandleEnd where
  | outside
  | refused
  | done
deriving DecidableEq

/-- What has been printed when a pass ends, and how it ends. -/
structure PhandlePass where
  out : CString
  ended : PhandleEnd

def PhandlePass.after (text : CString) (pass : PhandlePass) : PhandlePass := ⟨text ++ pass.out, pass.ended⟩

def phandleArgs (data : List Byte) : Nat → Nat → Option (List (BitVec 32))
  | 0, _ => some []
  | n + 1, p =>
    match fdt32 data p with
    | none => none
    | some cell => (phandleArgs data n (p + 4)).map (cell :: ·)

/-- The loop of a pass of `_fdt_prop_print_phandles`, from the cell at `p` on, with `sz` bytes left. -/
def phandlePass (fdt : FdtPhandles) (cellName : Option CString) (fixCellSize : Nat) (data : List Byte) (checkOnly : Bool) :
    Nat → Nat → Nat → PhandlePass
  | 0, _, _ => ⟨[], .outside⟩
  | fuel + 1, p, sz =>
    if sz < 4 then ⟨[], .done⟩
    else
      match fdt32 data p with
      | none => ⟨[], .outside⟩
      | some phandle =>
        let p := p + 4
        let sz := sz - 4
        let next (text : CString) (p sz : Nat) :=
          (phandlePass fdt cellName fixCellSize data checkOnly fuel p sz).after
            (if checkOnly then [] else text ++ cstr ">" ++ if 0 < sz then cstr ", " else [])
        if phandle = 0 then next (cstr "<0") p sz
        else
          match phandleTarget fdt cellName fixCellSize data phandle p sz with
          | .outside => ⟨[], .outside⟩
          | .refused => ⟨[], .refused⟩
          | .found label cellSize =>
            if (cellSize * 4).toNat > sz then ⟨[], .refused⟩
            else
              match if checkOnly then some [] else phandleArgs data cellSize.toNat p with
              | none => ⟨cstr "<&" ++ label, .outside⟩
              | some args =>
                -- sz is a size_t
                next (cstr "<&" ++ label ++ fdtPhandleCells args) (p + 4 * cellSize.toNat)
                  (if 4 * cellSize.toNat ≤ sz then sz - 4 * cellSize.toNat else sz + 2 ^ 64 - 4 * cellSize.toNat)

/-- `_fdt_prop_print_phandles`. Every pass of its loop takes a cell of the value or leaves it. -/
def fdtPropPrintPhandleList (fdt : FdtPhandles) (cellName : Option CString) (fixCellSize : Nat) (data : List Byte) :
    PhandlePass :=
  if data.length < 4 then ⟨[], .refused⟩
  else
    let check := phandlePass fdt cellName fixCellSize data true (data.length + 1) 0 data.length
    if check.ended ≠ .done then check
    else
      let print := phandlePass fdt cellName fixCellSize data false (data.length + 1) 0 data.length
      ⟨cstr " = " ++ print.out ++ (if print.ended = .done then cstr ";" else []), print.ended⟩

/-- An item of a phandle list: `<0>`, or a label with its arguments. -/
inductive PhandleItem where
  | zero
  | ref (phandle : BitVec 32) (label : CString) (args : List (BitVec 32))

namespace PhandleItem

def cells : PhandleItem → List (BitVec 32)
  | zero => [0]
  | ref phandle _ args => phandle :: args

def text : PhandleItem → CString
  | zero => cstr "<0>"
  | ref _ label args => cstr "<&" ++ label ++ fdtPhandleCells args ++ cstr ">"

/-- The label is that of the node with the phandle. -/
def Labelled (fdt : FdtPhandles) : PhandleItem → Prop
  | zero => True
  | ref phandle label _ => ∃ node, node.label = label ∧ (deviceNodeSearchPhandle phandle fdt.root = some node ∨
      deviceNodeSearchPhandle phandle fdt.root = none ∧ fdt.dtboExtern.bind (deviceNodeSearchPhandle phandle) = some node)

def listText : List PhandleItem → CString
  | [] => []
  | [item] => item.text
  | item :: other :: items => item.text ++ cstr ", " ++ listText (other :: items)

end PhandleItem

/-- Nothing is printed, or a list of all the cells of the value; and no cell behind it is read. -/
def PhandlesRight (fdt : FdtPhandles) (cellName : Option CString) (fixCellSize : Nat) (data : List Byte) : Prop :=
  let print := fdtPropPrintPhandleList fdt cellName fixCellSize data
  (print.ended = .refused ∧ print.out = []) ∨
    (print.ended = .done ∧ ∃ items : List PhandleItem, (∀ item ∈ items, item.Labelled fdt) ∧
      data = be32Words (items.flatMap PhandleItem.cells) ∧
      print.out = cstr " = " ++ PhandleItem.listText items ++ cstr ";")

/-- From a place in a value on, items take it up to its end or up to one that is refused. -/
inductive PhandlesFit (fdt : FdtPhandles) (cellName : Option CString) (fixCellSize : Nat) (data : List Byte) : Nat → Prop
  | ended : PhandlesFit fdt cellName fixCellSize data data.length
  | zero {p : Nat} (inside : p + 4 ≤ data.length) (zero : be32 data p = 0)
      (rest : PhandlesFit fdt cellName fixCellSize data (p + 4)) : PhandlesFit fdt cellName fixCellSize data p
  | refused {p : Nat} (inside : p + 4 ≤ data.length) (some : be32 data p ≠ 0)
      (refused : phandleTarget fdt cellName fixCellSize data (be32 data p) (p + 4) (data.length - (p + 4)) = .refused) :
      PhandlesFit fdt cellName fixCellSize data p
  | tooMany {p : Nat} {label : CString} {cellSize : BitVec 32} (inside : p + 4 ≤ data.length) (some : be32 data p ≠ 0)
      (found : phandleTarget fdt cellName fixCellSize data (be32 data p) (p + 4) (data.length - (p + 4)) =
        .found label cellSize)
      (refused : data.length - (p + 4) < (cellSize * 4).toNat) : PhandlesFit fdt cellName fixCellSize data p
  | ref {p : Nat} {label : CString} {cellSize : BitVec 32} (inside : p + 4 ≤ data.length) (some : be32 data p ≠ 0)
      (found : phandleTarget fdt cellName fixCellSize data (be32 data p) (p + 4) (data.length - (p + 4)) =
        .found label cellSize)
      (fits : p + 4 + 4 * cellSize.toNat ≤ data.length)
      (rest : PhandlesFit fdt cellName fixCellSize data (p + 4 + 4 * cellSize.toNat)) :
      PhandlesFit fdt cellName fixCellSize data p

theorem fdt32_inside {data : List Byte} {p : Nat} (inside : p + 4 ≤ data.length) : fdt32 data p = some (be32 data p) := by
  rw [fdt32, fdtBytes, if_pos inside, Option.map_some, ← be32_field]

theorem fdt32_outside {data : List Byte} {p : Nat} (outside : data.length < p + 4) : fdt32 data p = none := by
  rw [fdt32, fdtBytes, if_neg (by omega), Option.map_none]

section Passes

variable {fdt : FdtPhandles} {cellName : Option CString} {fixCellSize : Nat} {data : List Byte}

@[simp] theorem PhandlePass.after_ended (text : CString) (pass : PhandlePass) : (pass.after text).ended = pass.ended := rfl

theorem phandlePass_beyond (checkOnly : Bool) (fuel : Nat) {p sz : Nat} (some : 4 ≤ sz) (outside : data.length < p + 4) :
    (phandlePass fdt cellName fixCellSize data checkOnly fuel p sz).ended = .outside := by
  cases fuel with
  | zero => rfl
  | succ fuel => rw [phandlePass, if_neg (by omega), fdt32_outside outside]

theorem phandlePass_check_out (fuel p sz : Nat) : (phandlePass fdt cellName fixCellSize data true fuel p sz).out = [] := by
  induction fuel generalizing p sz with
  | zero => rfl
  | succ fuel ih =>
    rw [phandlePass]
    split
    · rfl
    · split
      · rfl
      · dsimp only
        split
        · exact ih _ _
        · split
          · rfl
          · rfl
          · split
            · rfl
            · exact ih _ _

/-- A check pass that stays inside the value finds that it fits, if it takes all of it. -/
theorem phandlePass_fits (fuel : Nat) {p : Nat} (inside : p ≤ data.length) :
    ((phandlePass fdt cellName fixCellSize data true fuel p (data.length - p)).ended = .refused →
        PhandlesFit fdt cellName fixCellSize data p) ∧
      ((phandlePass fdt cellName fixCellSize data true fuel p (data.length - p)).ended = .done →
        data.length % 4 = p % 4 → PhandlesFit fdt cellName fixCellSize data p) := by
  induction fuel generalizing p with
  | zero => exact ⟨nofun, nofun⟩
  | succ fuel ih =>
    rw [phandlePass]
    by_cases short : data.length - p < 4
    · rw [if_pos short]
      refine ⟨nofun, fun _ whole => ?_⟩
      obtain rfl : p = data.length := by omega
      exact .ended
    · have left : data.length - p - 4 = data.length - (p + 4) := by omega
      rw [if_neg short, fdt32_inside (by omega)]
      dsimp only
      rw [left]
      by_cases zero : be32 data p = 0
      · rw [if_pos zero]
        obtain ⟨refused, done⟩ := ih (p := p + 4) (by omega)
        exact ⟨fun ended => .zero (by omega) zero (refused ended),
          fun ended whole => .zero (by omega) zero (done ended (by omega))⟩
      · rw [if_neg zero]
        cases found : phandleTarget fdt cellName fixCellSize data (be32 data p) (p + 4) (data.length - (p + 4)) with
        | outside => exact ⟨nofun, nofun⟩
        | refused => exact ⟨fun _ => .refused (by omega) zero found, nofun⟩
        | found label cellSize =>
          dsimp only
          by_cases many : (cellSize * 4).toNat > data.length - (p + 4)
          · rw [if_pos many]
            exact ⟨fun _ => .tooMany (by omega) zero found many, nofun⟩
          · rw [if_neg many]
            simp only [if_true]
            by_cases fits : 4 * cellSize.toNat ≤ data.length - (p + 4)
            · have rest : data.length - (p + 4) - 4 * cellSize.toNat = data.length - (p + 4 + 4 * cellSize.toNat) := by
                omega
              rw [if_pos fits, rest]
              obtain ⟨refused, done⟩ := ih (p := p + 4 + 4 * cellSize.toNat) (by omega)
              exact ⟨fun ended => .ref (by omega) zero found (by omega) (refused ended),
                fun ended whole => .ref (by omega) zero found (by omega) (done ended (by omega))⟩
            · have far : (phandlePass fdt cellName fixCellSize data true fuel (p + 4 + 4 * cellSize.toNat)
                  (data.length - (p + 4) + 2 ^ 64 - 4 * cellSize.toNat)).ended = .outside := by
                have bound := cellSize.isLt
                exact phandlePass_beyond true fuel (by omega) (by omega)
              rw [if_neg fits, PhandlePass.after_ended, far]
              exact ⟨nofun, nofun⟩

/-- The count leaves the value unless one of the cells that are left is an extern phandle. -/
theorem countCells_eq_none_iff {sz : Nat} (fuel i : Nat) {pp : Nat} (cellSize : BitVec 32) (rest : pp + sz = data.length + i)
    (enough : sz < fuel + i) : countCells data sz fuel i pp cellSize = none ↔
      ∀ j, i + 4 * (j + 1) ≤ sz → phandleIsDtboExtern (be32 data (pp + 4 * j)) = false := by
  induction fuel generalizing i pp cellSize with
  | zero => exact iff_of_true rfl fun j inside => by omega
  | succ fuel ih =>
    rw [countCells]
    by_cases inside : pp + 4 ≤ data.length
    · rw [fdt32_inside inside]
      dsimp only
      cases marked : phandleIsDtboExtern (be32 data pp) with
      | true =>
        rw [if_neg (by simp)]
        refine iff_of_false nofun fun none => ?_
        have here := none 0 (by omega)
        rw [Nat.mul_zero, Nat.add_zero, marked] at here
        cases here
      | false =>
        rw [if_pos ⟨by simp, by omega⟩, ih (i + 4) _ (by omega) (by omega)]
        constructor
        · intro none j more
          cases j with
          | zero => exact marked
          | succ j =>
            rw [Nat.mul_succ, Nat.add_comm (4 * j) 4, ← Nat.add_assoc]
            exact none j (by omega)
        · intro none j more
          rw [Nat.add_assoc, Nat.add_comm 4, ← Nat.mul_succ]
          exact none (j + 1) (by omega)
    · rw [fdt32_outside (by omega)]
      exact iff_of_true rfl fun j more => by omega

theorem checkTarget_label {cellSize cellSize' : BitVec 32} {label : CString} {target : Option LabelledNode}
    (found : checkTarget fdt cellName cellSize target = .found label cellSize') :
    ∃ node, target = some node ∧ node.label = label := by
  cases target with
  | none => cases found
  | some node =>
    refine ⟨node, rfl, ?_⟩
    by_cases unlabelled : node.label = []
    · simp [checkTarget, unlabelled] at found
    · cases dtbo : fdt.isDtbo with
      | true =>
        simp only [checkTarget, unlabelled, dtbo, if_false] at found
        exact (PhandleTarget.found.inj found).1
      | false =>
        cases cellName with
        | none =>
          simp only [checkTarget, unlabelled, dtbo, if_false] at found
          exact (PhandleTarget.found.inj found).1
        | some cellName =>
          simp only [checkTarget, unlabelled, dtbo, if_false] at found
          split at found
          · cases found
          · exact (PhandleTarget.found.inj found).1

theorem phandleTarget_label {phandle cellSize : BitVec 32} {p sz : Nat} {label : CString}
    (found : phandleTarget fdt cellName fixCellSize data phandle p sz = .found label cellSize) (args : List (BitVec 32)) :
    (PhandleItem.ref phandle label args).Labelled fdt := by
  cases here : deviceNodeSearchPhandle phandle fdt.root with
  | some target =>
    simp only [phandleTarget, here] at found
    obtain ⟨node, same, labelled⟩ := checkTarget_label found
    exact ⟨node, labelled, .inl (here.trans same)⟩
  | none =>
    cases dtbo : fdt.isDtbo with
    | false =>
      simp only [phandleTarget, here, dtbo] at found
      cases found
    | true =>
      cases given : fdt.dtboExtern with
      | none =>
        simp only [phandleTarget, here, dtbo, given] at found
        cases found
      | some ext =>
        cases there : deviceNodeSearchPhandle phandle ext with
        | none =>
          simp only [phandleTarget, here, dtbo, given, there] at found
          cases found
        | some target =>
          have inExtern : fdt.dtboExtern.bind (deviceNodeSearchPhandle phandle) = some target := by
            rw [given, Option.bind_some, there]
          simp only [phandleTarget, here, dtbo, given, there] at found
          split at found
          · obtain ⟨node, same, labelled⟩ := checkTarget_label found
            exact ⟨node, labelled, .inr ⟨here, inExtern.trans same⟩⟩
          · split at found
            · cases found
            · obtain ⟨node, same, labelled⟩ := checkTarget_label found
              exact ⟨node, labelled, .inr ⟨here, inExtern.trans same⟩⟩

theorem phandleArgs_inside (n : Nat) {p : Nat} (inside : p + 4 * n ≤ data.length) :
    ∃ args, phandleArgs data n p = some args ∧ be32Words args = field data p (4 * n) := by
  induction n generalizing p with
  | zero => exact ⟨[], rfl, by simp [be32Words, field]⟩
  | succ n ih =>
    obtain ⟨args, read, bytes⟩ := ih (p := p + 4) (by omega)
    refine ⟨be32 data p :: args, by rw [phandleArgs, fdt32_inside (by omega)]; simp only [read, Option.map_some], ?_⟩
    have words : be32Words (be32 data p :: args) = cpuToBe32 (be32 data p) ++ be32Words args := List.flatMap_cons
    rw [words, bytes, cpuToBe32_be32 (by omega), Nat.mul_succ, Nat.add_comm (4 * n) 4, field_add]

theorem PhandleItem.listText_cons (item : PhandleItem) (items : List PhandleItem) :
    listText (item :: items) = item.text ++ (if items = [] then [] else cstr ", ") ++ listText items := by
  cases items with
  | nil => simp [listText]
  | cons other items => simp [listText]

theorem PhandleItem.cells_nonempty (items : List PhandleItem) : be32Words (items.flatMap cells) = [] ↔ items = [] := by
  constructor
  · intro none
    have length := congrArg List.length none
    cases items with
    | nil => rfl
    | cons item items => cases item <;> simp [cells] at length
  · intro none
    rw [none]
    rfl

theorem PhandleItem.zero_split {p : Nat} (here : p + 4 ≤ data.length) (zero : be32 data p = 0) :
    data.drop p = be32Words PhandleItem.zero.cells ++ data.drop (p + 4) := by
  have cell := cpuToBe32_be32 here
  rw [zero] at cell
  have parts := List.take_append_drop 4 (data.drop p)
  rw [List.drop_drop, ← field, ← cell] at parts
  simpa [be32Words, PhandleItem.cells] using parts.symm

theorem PhandleItem.ref_split {p n : Nat} {args : List (BitVec 32)} (here : p + 4 ≤ data.length)
    (bytes : be32Words args = field data (p + 4) (4 * n)) (label : CString) :
    data.drop p = be32Words (PhandleItem.ref (be32 data p) label args).cells ++ data.drop (p + 4 + 4 * n) := by
  have words : be32Words (be32 data p :: args) = cpuToBe32 (be32 data p) ++ be32Words args := List.flatMap_cons
  have parts := List.take_append_drop (4 + 4 * n) (data.drop p)
  rw [List.drop_drop, ← field, field_add, ← cpuToBe32_be32 here, ← bytes, ← Nat.add_assoc] at parts
  rw [PhandleItem.cells, words, parts]

/-- What the passes make of the value from a place on. -/
def PhandlesTaken (fdt : FdtPhandles) (data : List Byte) (p : Nat) (check print : PhandlePass) : Prop :=
  check.ended = .refused ∨ check.ended = .done ∧ ∃ items : List PhandleItem, (∀ item ∈ items, item.Labelled fdt) ∧
    data.drop p = be32Words (items.flatMap PhandleItem.cells) ∧ print = ⟨PhandleItem.listText items, .done⟩

/-- An item, printed in front of the items behind it. -/
theorem PhandlesTaken.cons {p next : Nat} {check print : PhandlePass} (item : PhandleItem) (labelled : item.Labelled fdt)
    (inside : next ≤ data.length) (split : data.drop p = be32Words item.cells ++ data.drop next)
    (taken : PhandlesTaken fdt data next check print) :
    PhandlesTaken fdt data p (check.after []) (print.after (item.text ++ if 0 < data.length - next then cstr ", " else [])) := by
  rcases taken with refused | ⟨done, items, labels, bytes, rfl⟩
  · exact .inl refused
  · refine .inr ⟨done, item :: items, ?_, ?_, ?_⟩
    · intro other member
      rcases List.mem_cons.mp member with rfl | member
      · exact labelled
      · exact labels other member
    · rw [split, bytes, List.flatMap_cons]
      simp [be32Words]
    · have more : 0 < data.length - next ↔ ¬ items = [] := by
        rw [← PhandleItem.cells_nonempty, ← bytes, List.drop_eq_nil_iff]
        omega
      rw [PhandlePass.after, PhandleItem.listText_cons]
      by_cases none : items = []
      · rw [if_neg fun some => more.mp some none, if_pos none]
      · rw [if_pos (more.mpr none), if_neg none]

theorem PhandlesFit.taken {p : Nat} (fits : PhandlesFit fdt cellName fixCellSize data p) {fuel : Nat}
    (inside : p ≤ data.length) (enough : data.length - p < fuel) :
    PhandlesTaken fdt data p (phandlePass fdt cellName fixCellSize data true fuel p (data.length - p))
      (phandlePass fdt cellName fixCellSize data false fuel p (data.length - p)) := by
  induction fits generalizing fuel with
  | ended =>
    obtain ⟨fuel, rfl⟩ : ∃ n, fuel = n + 1 := ⟨fuel - 1, by omega⟩
    rw [phandlePass, phandlePass, Nat.sub_self, if_pos (by decide)]
    exact .inr ⟨rfl, [], nofun, by simp [be32Words], rfl⟩
  | @zero p here zero rest ih =>
    obtain ⟨fuel, rfl⟩ : ∃ n, fuel = n + 1 := ⟨fuel - 1, by omega⟩
    have left : data.length - p - 4 = data.length - (p + 4) := by omega
    have taken := (@ih fuel (by omega) (by omega)).cons .zero trivial here (PhandleItem.zero_split here zero)
    rw [phandlePass, phandlePass, if_neg (by omega), if_neg (by omega), fdt32_inside here]
    simp only [left, zero, if_true]
    exact taken
  | @refused p here some refused =>
    obtain ⟨fuel, rfl⟩ : ∃ n, fuel = n + 1 := ⟨fuel - 1, by omega⟩
    have left : data.length - p - 4 = data.length - (p + 4) := by omega
    rw [phandlePass, if_neg (by omega), fdt32_inside here]
    simp only [left, some, if_false, refused]
    exact .inl rfl
  | @tooMany p label cellSize here some found refused =>
    obtain ⟨fuel, rfl⟩ : ∃ n, fuel = n + 1 := ⟨fuel - 1, by omega⟩
    have left : data.length - p - 4 = data.length - (p + 4) := by omega
    rw [phandlePass, if_neg (by omega), fdt32_inside here]
    simp only [left, some, if_false, found, gt_iff_lt, refused, if_true]
    exact .inl rfl
  | @ref p label cellSize here some found fits rest ih =>
    obtain ⟨fuel, rfl⟩ : ∃ n, fuel = n + 1 := ⟨fuel - 1, by omega⟩
    have left : data.length - p - 4 = data.length - (p + 4) := by omega
    have few : ¬ (cellSize * 4).toNat > data.length - (p + 4) := by
      have product : (cellSize * 4).toNat ≤ cellSize.toNat * 4 := by
        rw [BitVec.toNat_mul]
        exact Nat.mod_le _ _
      omega
    obtain ⟨args, read, bytes⟩ := phandleArgs_inside cellSize.toNat fits
    have taken := (@ih fuel (by omega) (by omega)).cons (.ref (be32 data p) label args)
      (phandleTarget_label found args) fits (PhandleItem.ref_split here bytes label)
    have room : data.length - (p + 4) - 4 * cellSize.toNat = data.length - (p + 4 + 4 * cellSize.toNat) := by omega
    have enough_ : 4 * cellSize.toNat ≤ data.length - (p + 4) := by omega
    rw [phandlePass, phandlePass, if_neg (by omega), if_neg (by omega), fdt32_inside here]
    simp only [left, some, if_false, found, few, read, enough_, if_true, room, Bool.false_eq_true]
    exact taken

/-- The printer keeps to the value, and takes all of it or nothing, exactly if the value fits. -/
theorem fdtPropPrintPhandleList_right_iff (fdt : FdtPhandles) (cellName : Option CString) (fixCellSize : Nat) (data : List Byte) :
    PhandlesRight fdt cellName fixCellSize data ↔ data.length < 4 ∨ PhandlesFit fdt cellName fixCellSize data 0 := by
  rw [PhandlesRight]
  by_cases short : data.length < 4
  · rw [fdtPropPrintPhandleList, if_pos short]
    exact iff_of_true (.inl ⟨rfl, rfl⟩) (.inl short)
  · rw [fdtPropPrintPhandleList, if_neg short, or_iff_right short]
    constructor
    · intro right
      obtain ⟨refused, done⟩ := @phandlePass_fits fdt cellName fixCellSize data (data.length + 1) 0 (Nat.zero_le _)
      rw [Nat.sub_zero] at refused done
      by_cases checked : (phandlePass fdt cellName fixCellSize data true (data.length + 1) 0 data.length).ended = .done
      · simp only [checked, ne_eq, not_true_eq_false, if_false] at right
        rcases right with ⟨_, nothing⟩ | ⟨_, items, _, bytes, _⟩
        · have start : cstr " = " ≠ [] := by decide
          exact absurd (List.append_eq_nil_iff.mp (List.append_eq_nil_iff.mp nothing).1).1 start
        · have length := congrArg List.length bytes
          rw [be32Words_length] at length
          exact done checked (by omega)
      · simp only [checked, ne_eq, not_false_eq_true, if_true] at right
        rcases right with ⟨ended, _⟩ | ⟨ended, _⟩
        · exact refused ended
        · exact ended.elim
    · intro fits
      have taken := fits.taken (Nat.zero_le _) (Nat.lt_succ_self _)
      rw [Nat.sub_zero] at taken
      rcases taken with refused | ⟨done, items, labels, bytes, print⟩
      · have nothing := @phandlePass_check_out fdt cellName fixCellSize data (data.length + 1) 0 data.length
        simp only [refused, ne_eq, reduceCtorEq, not_false_eq_true, if_true]
        exact .inl ⟨trivial, nothing⟩
      · simp only [done, ne_eq, not_true_eq_false, if_false, print]
        exact .inr ⟨trivial, items, labels, bytes, rfl⟩

/-- A count of cells that is 0 modulo 2^30 lets the reader pass the end of the value. -/
theorem fdtPropPrintPhandleList_wraps :
    ¬ PhandlesRight ⟨.mk [47#8] [] true [] [.mk (cstr "osc") (cstr "osc24M") true []
        [.mk (cstr "phandle") [] false (cpuToBe32 1) [], .mk (cstr "#clock-cells") [] false (cpuToBe32 0x40000000) []]],
      false, none⟩ (some (cstr "#clock-cells")) 0 (cpuToBe32 1) := by
  intro right
  have ended : (fdtPropPrintPhandleList ⟨.mk [47#8] [] true [] [.mk (cstr "osc") (cstr "osc24M") true []
        [.mk (cstr "phandle") [] false (cpuToBe32 1) [], .mk (cstr "#clock-cells") [] false (cpuToBe32 0x40000000) []]],
      false, none⟩ (some (cstr "#clock-cells")) 0 (cpuToBe32 1)).ended = .outside := by decide +kernel
  rcases right with ⟨refused, _⟩ | ⟨done, _⟩
  · rw [ended] at refused
    cases refused
  · rw [ended] at done
    cases done

end Passes

end ImgEditor
