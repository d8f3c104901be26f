import ImgEditor.Fdt.LabelTree
import Mathlib.Data.List.Basic

namespace ImgEditor

open Storage CText

def FDT_SYMBOLS_FIXUP : CString := cstr "__fixups__"

def FDT_DTBO_EXTERN_PHANDLE_START : BitVec 32 := 0xdeadb <<< 12

/-- `next_string`; positions in the buffer, `none` is NULL. -/
def nextString (buf : List Byte) (bufsz : Nat) : Option Nat → Option Nat
  | none => some 0
  | some s =>
    let next := s + (buf.drop s).findIdx (· = 0#8) + 1
    if next < bufsz then some next else none

/-- The string at a position, `none` if it has no end inside the buffer. -/
def stringAt (buf : List Byte) (s : Nat) : Option CString :=
  if 0#8 ∈ buf.drop s then some ((buf.drop s).takeWhile (· ≠ 0#8)) else none

/-- Four bytes of a property. -/
structure FixupPlace where
  node : List CString
  prop : CString
  index : Nat
deriving DecidableEq

/-- The cell that a fixup string names, if it lies inside its property. -/
def fixupPlace (root : DeviceNode) (s : CString) : Option FixupPlace :=
  match argvBufferSplitWithDelim s [58#8] 8 with
  | [path, propName, index] =>
    match deviceNodeFindBypath root path with
    | none => none
    | some target =>
      if ¬ target.isNode then none
      else
        match deviceNodeFindByname target propName with
        | none => none
        | some targetProp =>
          let (dataIndex, endp) := strtol 10 index
          if endp ≠ [] then none
          else if dataIndex < 0 ∨ dataIndex % 4 ≠ 0 ∨ dataIndex.toNat + 4 > targetProp.data.length then none
          else some ⟨argvBufferSplitWithDelim path [47#8] FDT_MAX_DEPTH, propName, dataIndex.toNat⟩
  | _ => none

namespace DeviceNode

/-- The tree with the data of a node or property changed, the first one of its path. -/
def update (f : List Byte → List Byte) : List CString → DeviceNode → DeviceNode
  | [], mk name isNode data child => mk name isNode (f data) child
  | first :: path, mk name isNode data child =>
    mk name isNode data (child.replaceF fun node => if node.name = first then some (update f path node) else none)

end DeviceNode

def fixupWrite (phandle : BitVec 32) (root : DeviceNode) (place : FixupPlace) : DeviceNode :=
  root.update (fun data => setField data place.index (cpuToBe32 phandle)) (place.node ++ [place.prop])

/-- What `fdt_apply_fixups` does with one string: `text` is none where the string has no end inside its property. -/
structure FixupVisit where
  name : CString
  phandle : BitVec 32
  before : DeviceNode
  text : Option CString
  place : Option FixupPlace
  after : DeviceNode

/-- The data of a property of `__fixups__`. -/
def fixupData (root : DeviceNode) (k : Nat) : List Byte :=
  (((deviceNodeFindByname root FDT_SYMBOLS_FIXUP).map (·.child)).getD [])[k]?.elim [] (·.data)

/-- `fdt_apply_fixups` for the property `k` of `__fixups__`. A string ends behind the one before, so the size of the
property bounds the strings; a string that is read past its property ends the run. -/
def fdtApplyFixups (name : CString) (phandle : BitVec 32) (k fixupDataSize : Nat) :
    Nat → Option Nat → DeviceNode → List FixupVisit × Option DeviceNode
  | 0, _, root => ([], some root)
  | fuel + 1, s, root =>
    match nextString (fixupData root k) fixupDataSize s with
    | none => ([], some root)
    | some s =>
      match stringAt (fixupData root k) s with
      | none => ([⟨name, phandle, root, none, none, root⟩], none)
      | some text =>
        let tmpbuf := text.take 255
        let place := fixupPlace root tmpbuf
        let after := place.elim root (fixupWrite phandle root)
        let (visits, done) := fdtApplyFixups name phandle k fixupDataSize fuel (some s) after
        (⟨name, phandle, root, some text, place, after⟩ :: visits, done)

def fdtPrepareLoop : List CString → Nat → DeviceNode → List FixupVisit × Option DeviceNode
  | [], _, root => ([], some root)
  | name :: names, k, root =>
    let phandle := FDT_DTBO_EXTERN_PHANDLE_START + BitVec.ofNat 32 k
    let dataSize := (fixupData root k).length
    match fdtApplyFixups name phandle k dataSize (dataSize + 1) none root with
    | (visits, none) => (visits, none)
    | (visits, some root) =>
      let (more, done) := fdtPrepareLoop names (k + 1) root
      (visits ++ more, done)

/-- The nodes that `fdt_prepare_dtbo_externs` makes for the names in `__fixups__`. -/
def externNodes : List CString → Nat → List LabelledNode
  | [], _ => []
  | name :: names, k =>
    .mk (name.take 63) (name.take 63) false []
      [.mk (cstr "phandle") [] false (cpuToBe32 (FDT_DTBO_EXTERN_PHANDLE_START + BitVec.ofNat 32 k)) []] ::
    externNodes names (k + 1)

/-- What `fdt_prepare_dtbo_externs` did: the strings it visited, the tree and the extern tree it left. -/
structure FixupRun where
  visits : List FixupVisit
  root : Option DeviceNode
  dtboExtern : Option LabelledNode

def fdtPrepareDtboExterns (root : DeviceNode) : FixupRun :=
  match deviceNodeFindByname root FDT_SYMBOLS_FIXUP with
  | none => ⟨[], some root, none⟩
  | some fixups =>
    if ¬ fixups.isNode then ⟨[], some root, none⟩
    else
      let names := fixups.child.map (·.name)
      let (visits, done) := fdtPrepareLoop names 0 root
      ⟨visits, done, some (.mk (cstr "/") [] false [] (externNodes names 0))⟩

/-- A string is read inside its property, and its fixup goes where the string says and nowhere else. -/
structure FixupVisit.Right (visit : FixupVisit) : Prop where
  named : ∃ s, visit.text = some s ∧ visit.place = fixupPlace visit.before s
  only : visit.after = visit.place.elim visit.before (fixupWrite visit.phandle visit.before)

def nodeAt (root : DeviceNode) (path : List CString) : Option DeviceNode := path.foldlM deviceNodeFindByname root

def phandleAt (root : DeviceNode) (place : FixupPlace) : Option (BitVec 32) :=
  (nodeAt root (place.node ++ [place.prop])).map fun prop => be32 prop.data place.index

/-- A cell that no later fixup has overwritten holds a phandle that leads to the node with the fixup's name. -/
def FixupRun.Resolved (run : FixupRun) (final : DeviceNode) : Prop :=
  ∀ earlier visit later place, run.visits = earlier ++ visit :: later → visit.place = some place →
    (∀ other ∈ later, other.place ≠ some place) →
    ∃ phandle node ext, phandleAt final place = some phandle ∧ run.dtboExtern = some ext ∧
      deviceNodeSearchPhandle phandle ext = some node ∧ node.label = visit.name

def FixupsRight (root : DeviceNode) : Prop :=
  (∀ visit ∈ (fdtPrepareDtboExterns root).visits, visit.Right) ∧
    ∃ final, (fdtPrepareDtboExterns root).root = some final ∧ (fdtPrepareDtboExterns root).Resolved final

/-- The string ends inside its property, and it has no more bytes than the code takes or names the same cell, or none,
with those alone. -/
def FixupVisit.Fits (visit : FixupVisit) : Prop :=
  ∃ s, visit.text = some s ∧ (s.length ≤ 255 ∨ fixupPlace visit.before (s.take 255) = fixupPlace visit.before s)

def FixupsFit (root : DeviceNode) : Prop := ∀ visit ∈ (fdtPrepareDtboExterns root).visits, visit.Fits

section Trees

variable (f : List Byte → List Byte) (root : DeviceNode)

@[simp] theorem update_name (path : List CString) : (root.update f path).name = root.name := by
  cases root
  cases path <;> rfl

@[simp] theorem update_isNode (path : List CString) : (root.update f path).isNode = root.isNode := by
  cases root
  cases path <;> rfl

theorem findByname_replace (child : List DeviceNode) (first name : CString) {g : DeviceNode → DeviceNode}
    (named : ∀ node, (g node).name = node.name) :
    (child.replaceF fun node => if node.name = first then some (g node) else none).find?
        (fun node => decide (node.name = name)) =
      (child.find? fun node => decide (node.name = name)).map fun node => if name = first then g node else node := by
  induction child with
  | nil => rfl
  | cons node child ih =>
    by_cases here : node.name = first
    · simp only [List.replaceF, if_pos here]
      by_cases same : first = name
      · subst same
        rw [List.find?_cons_of_pos (by simpa [named] using here), List.find?_cons_of_pos (by simpa using here),
          Option.map_some, if_pos rfl]
      · rw [List.find?_cons_of_neg (by simpa [named, here] using same), List.find?_cons_of_neg (by simpa [here] using same)]
        simp [Ne.symm same]
    · simp only [List.replaceF, if_neg here]
      by_cases same : node.name = name
      · rw [List.find?_cons_of_pos (by simpa using same), List.find?_cons_of_pos (by simpa using same), Option.map_some,
          if_neg fun first => here (same.trans first)]
      · rw [List.find?_cons_of_neg (by simpa using same), List.find?_cons_of_neg (by simpa using same), ih]

/-- The node at a path, with the data at another one changed. -/
theorem nodeAt_update (path other : List CString) :
    nodeAt (root.update f path) other =
      (nodeAt root other).map fun node => if other <+: path then node.update f (path.drop other.length) else node := by
  induction other generalizing root path with
  | nil => simp [nodeAt]
  | cons name other ih =>
    have step (node : DeviceNode) : nodeAt node (name :: other) =
        (deviceNodeFindByname node name).bind fun node => nodeAt node other := by
      rw [nodeAt, List.foldlM_cons]
      rfl
    rw [step, step]
    cases path with
    | nil =>
      cases root
      have same : ((fun node => if name :: other <+: [] then node.update f ([].drop (other.length + 1)) else node) :
          DeviceNode → DeviceNode) = id := by
        funext node
        simp
      rw [List.length_cons, same, Option.map_id]
      rfl
    | cons first path =>
      have found : deviceNodeFindByname (root.update f (first :: path)) name =
          (deviceNodeFindByname root name).map fun node => if name = first then node.update f path else node := by
        cases root
        exact findByname_replace _ first name fun node => update_name f node path
      rw [found, Option.bind_map, Option.map_bind]
      by_cases same : name = first
      · subst same
        apply congrArg
        funext node
        simp [ih, List.cons_prefix_cons]
      · apply congrArg
        funext node
        simp [same, List.cons_prefix_cons]

end Trees

theorem nodeAt_concat (root : DeviceNode) (path : List CString) (name : CString) :
    nodeAt root (path ++ [name]) = (nodeAt root path).bind fun node => deviceNodeFindByname node name := by
  rw [nodeAt, List.foldlM_append]
  simp [nodeAt]

/-- Two trees that differ in the bytes of their properties at most. -/
def SameShape (root other : DeviceNode) : Prop :=
  ∀ path, (nodeAt root path).map (fun node => (node.isNode, node.data.length)) =
    (nodeAt other path).map fun node => (node.isNode, node.data.length)

theorem SameShape.trans {first second third : DeviceNode} (front : SameShape first second) (back : SameShape second third) :
    SameShape first third := fun path => (front path).trans (back path)

theorem update_data (f : List Byte → List Byte) (node : DeviceNode) (path : List CString) :
    (node.update f path).data = if path = [] then f node.data else node.data := by
  cases node
  cases path <;> rfl

theorem sameShape_update {f : List Byte → List Byte} {root : DeviceNode} {path : List CString}
    (length : ∀ node, nodeAt root path = some node → (f node.data).length = node.data.length) :
    SameShape (root.update f path) root := by
  intro other
  rw [nodeAt_update, Option.map_map]
  apply Option.map_congr
  intro node found
  by_cases here : other <+: path
  · simp only [Function.comp_apply, if_pos here, update_isNode, update_data]
    by_cases whole : path.drop other.length = []
    · have same : other = path := by
        apply here.eq_of_length
        have short := List.drop_eq_nil_iff.mp whole
        have long := here.length_le
        omega
      rw [same] at found
      rw [if_pos whole, length node found]
    · rw [if_neg whole]
  · simp only [Function.comp_apply, if_neg here]

/-- A cell inside a property of the tree. -/
structure FixupPlace.Valid (root : DeviceNode) (place : FixupPlace) : Prop where
  inside : ∃ prop, nodeAt root (place.node ++ [place.prop]) = some prop ∧ place.index + 4 ≤ prop.data.length
  aligned : place.index % 4 = 0

theorem FixupPlace.Valid.shape {root other : DeviceNode} {place : FixupPlace} (valid : place.Valid root)
    (same : SameShape other root) : place.Valid other := by
  obtain ⟨prop, found, inside⟩ := valid.inside
  have at_ := same (place.node ++ [place.prop])
  rw [found, Option.map_some] at at_
  obtain ⟨there, found', equal⟩ := Option.map_eq_some_iff.mp at_
  have lengths : there.data.length = prop.data.length := (Prod.mk.inj equal).2
  exact ⟨⟨there, found', by omega⟩, valid.aligned⟩

theorem fixupWrite_shape {root : DeviceNode} {place : FixupPlace} (valid : place.Valid root) (phandle : BitVec 32) :
    SameShape (fixupWrite phandle root place) root := by
  apply sameShape_update
  intro node found
  obtain ⟨prop, there, inside⟩ := valid.inside
  rw [there] at found
  rw [← Option.some.inj found]
  exact setField_length (by simpa using inside)

/-- Which cell a string names depends on nothing but the shape of the tree. -/
theorem fixupPlace_shape {root other : DeviceNode} (same : SameShape other root) (s : CString) :
    fixupPlace other s = fixupPlace root s := by
  unfold fixupPlace
  split
  · rename_i path propName index _
    have targets := same (argvBufferSplitWithDelim path [47#8] FDT_MAX_DEPTH)
    have props := same (argvBufferSplitWithDelim path [47#8] FDT_MAX_DEPTH ++ [propName])
    rw [nodeAt_concat, nodeAt_concat] at props
    show (match nodeAt other _ with | none => _ | some target => _) = match nodeAt root _ with | none => _ | some target => _
    cases found : nodeAt root (argvBufferSplitWithDelim path [47#8] FDT_MAX_DEPTH) with
    | none =>
      rw [found, Option.map_none] at targets
      rw [Option.map_eq_none_iff.mp targets]
    | some target =>
      rw [found, Option.map_some] at targets
      obtain ⟨target', found', equal⟩ := Option.map_eq_some_iff.mp targets
      rw [found, found', Option.bind_some, Option.bind_some] at props
      have node : target'.isNode = target.isNode := (Prod.mk.inj equal).1
      rw [found']
      simp only [node]
      split
      · rfl
      · cases has : deviceNodeFindByname target propName with
        | none =>
          rw [has, Option.map_none] at props
          rw [Option.map_eq_none_iff.mp props]
        | some prop =>
          rw [has, Option.map_some] at props
          obtain ⟨prop', has', equal⟩ := Option.map_eq_some_iff.mp props
          have length : prop'.data.length = prop.data.length := (Prod.mk.inj equal).2
          rw [has']
          simp only [length]
  · rfl

theorem fixupPlace_valid {root : DeviceNode} {s : CString} {place : FixupPlace} (named : fixupPlace root s = some place) :
    place.Valid root := by
  unfold fixupPlace at named
  split at named
  · split at named
    · cases named
    · rename_i target found
      split at named
      · cases named
      · split at named
        · cases named
        · rename_i prop has
          dsimp only at named
          split at named
          · cases named
          · split at named
            · cases named
            · rename_i inside
              obtain rfl := Option.some.inj named
              refine ⟨⟨prop, ?_, by simp only; omega⟩, by simp only; omega⟩
              rw [nodeAt_concat]
              show (deviceNodeFindBypath root _).bind _ = _
              rw [found]
              exact has
  · cases named

theorem phandleAt_write {root : DeviceNode} {place : FixupPlace} (valid : place.Valid root) (phandle : BitVec 32) :
    phandleAt (fixupWrite phandle root place) place = some phandle := by
  obtain ⟨prop, found, inside⟩ := valid.inside
  have written := @field_setField prop.data place.index (cpuToBe32 phandle) (by simpa using inside)
  have read := be32_cpuToBe32 phandle []
  rw [List.append_nil] at read
  rw [cpuToBe32_length] at written
  rw [phandleAt, fixupWrite, nodeAt_update, found, Option.map_some, Option.map_some, if_pos (List.prefix_refl _),
    List.drop_length, update_data, if_pos rfl, be32_field, written, read]

theorem phandleAt_other {root : DeviceNode} {place other : FixupPlace} (valid : place.Valid root) (valid' : other.Valid root)
    (apart : place ≠ other) (phandle : BitVec 32) :
    phandleAt (fixupWrite phandle root place) other = phandleAt root other := by
  obtain ⟨prop, found, inside⟩ := valid.inside
  obtain ⟨prop', found', inside'⟩ := valid'.inside
  rw [phandleAt, phandleAt, fixupWrite, nodeAt_update, found', Option.map_some, Option.map_some, Option.map_some]
  by_cases here : other.node ++ [other.prop] <+: place.node ++ [place.prop]
  · rw [if_pos here, update_data]
    by_cases whole : (place.node ++ [place.prop]).drop (other.node ++ [other.prop]).length = []
    · have same : other.node ++ [other.prop] = place.node ++ [place.prop] := by
        apply here.eq_of_length
        have short := List.drop_eq_nil_iff.mp whole
        have long := here.length_le
        omega
      obtain ⟨node, prop_⟩ := List.append_inj' same rfl
      have index : place.index ≠ other.index := by
        intro index
        apply apart
        cases place
        cases other
        simp_all
      have aligned := valid.aligned
      have aligned' := valid'.aligned
      rw [same, found] at found'
      obtain rfl := Option.some.inj found'
      rw [if_pos whole, be32_field, field_setField_apart (by simpa using inside) (by rw [cpuToBe32_length]; omega),
        ← be32_field]
    · rw [if_neg whole]
  · rw [if_neg here]

/-- The tree after some visits. -/
def replayFixups (root : DeviceNode) (visits : List FixupVisit) : DeviceNode :=
  visits.foldl (fun root visit => visit.place.elim root (fixupWrite visit.phandle root)) root

/-- A visit in a run on a tree, told by the tree that the run started with. -/
structure FixupVisit.Of (root : DeviceNode) (name : CString) (phandle : BitVec 32) (visit : FixupVisit) : Prop where
  name : visit.name = name
  phandle : visit.phandle = phandle
  shape : SameShape visit.before root
  place : visit.place = visit.text.bind fun s => fixupPlace root (s.take 255)
  only : visit.after = visit.place.elim visit.before (fixupWrite visit.phandle visit.before)

theorem FixupVisit.Of.valid {root : DeviceNode} {name : CString} {phandle : BitVec 32} {visit : FixupVisit}
    (of : visit.Of root name phandle) {place : FixupPlace} (written : visit.place = some place) : place.Valid root := by
  rw [of.place] at written
  obtain ⟨s, _, named⟩ := Option.bind_eq_some_iff.mp written
  exact fixupPlace_valid named

section Runs

variable {root start : DeviceNode} {name : CString} {phandle : BitVec 32}

theorem nextString_after {buf : List Byte} {bufsz s next : Nat} (found : nextString buf bufsz (some s) = some next) :
    s < next ∧ next < bufsz := by
  rw [nextString] at found
  split at found
  · rename_i inside
    have same := Option.some.inj found
    omega
  · cases found

/-- More fuel than the property has bytes left makes no difference. -/
theorem fdtApplyFixups_fuel (k size fuel : Nat) (s : Option Nat) (enough : s.elim (size + 1) (size - ·) ≤ fuel) :
    fdtApplyFixups name phandle k size (fuel + 1) s start = fdtApplyFixups name phandle k size fuel s start := by
  induction fuel generalizing s start with
  | zero =>
    cases s with
    | none => exact absurd enough (by simp)
    | some s =>
      rw [fdtApplyFixups, fdtApplyFixups]
      cases found : nextString (fixupData start k) size (some s) with
      | none => rfl
      | some next =>
        have after := nextString_after found
        simp only [Option.elim_some] at enough
        omega
  | succ fuel ih =>
    conv_lhs => rw [fdtApplyFixups]
    conv_rhs => rw [fdtApplyFixups]
    cases found : nextString (fixupData start k) size s with
    | none => rfl
    | some next =>
      have left : (some next).elim (size + 1) (size - ·) ≤ fuel := by
        cases s with
        | none =>
          obtain rfl : 0 = next := Option.some.inj found
          simpa using enough
        | some s =>
          have after := nextString_after found
          simp only [Option.elim_some] at enough ⊢
          omega
      dsimp only
      cases stringAt (fixupData start k) next with
      | none => rfl
      | some text => simp only [ih _ left]

theorem elim_shape (shape : SameShape start root) {place : Option FixupPlace}
    (valid : ∀ cell, place = some cell → cell.Valid root) : SameShape (place.elim start (fixupWrite phandle start)) root := by
  cases place with
  | none => exact shape
  | some cell => exact (fixupWrite_shape ((valid cell rfl).shape shape) phandle).trans shape

theorem fdtApplyFixups_visits (k size fuel : Nat) (s : Option Nat) (shape : SameShape start root) :
    (∀ visit ∈ (fdtApplyFixups name phandle k size fuel s start).1, visit.Of root name phandle) ∧
      (∀ final, (fdtApplyFixups name phandle k size fuel s start).2 = some final →
        final = replayFixups start (fdtApplyFixups name phandle k size fuel s start).1 ∧ SameShape final root) ∧
      ((fdtApplyFixups name phandle k size fuel s start).2 = none →
        ∃ visit ∈ (fdtApplyFixups name phandle k size fuel s start).1, visit.text = none) := by
  have stopped : (∀ visit ∈ ([] : List FixupVisit), visit.Of root name phandle) ∧
      (∀ final, some start = some final → final = replayFixups start [] ∧ SameShape final root) ∧
      (some start = none → ∃ visit ∈ ([] : List FixupVisit), visit.text = none) := by
    refine ⟨nofun, fun final same => ?_, nofun⟩
    rw [← Option.some.inj same]
    exact ⟨rfl, shape⟩
  induction fuel generalizing s start with
  | zero => exact stopped
  | succ fuel ih =>
    rw [fdtApplyFixups]
    cases nextString (fixupData start k) size s with
    | none => exact stopped
    | some s =>
      dsimp only
      cases stringAt (fixupData start k) s with
      | none =>
        refine ⟨fun visit member => ?_, nofun, fun _ => ⟨_, List.mem_singleton_self _, rfl⟩⟩
        rw [List.mem_singleton.mp member]
        exact ⟨rfl, rfl, shape, rfl, rfl⟩
      | some text =>
        have named : fixupPlace start (text.take 255) = fixupPlace root (text.take 255) := fixupPlace_shape shape _
        have next : SameShape ((fixupPlace start (text.take 255)).elim start (fixupWrite phandle start)) root :=
          elim_shape shape fun cell found => fixupPlace_valid (named.symm.trans found)
        obtain ⟨visits, final, ended⟩ := ih (some s) next (by
          refine ⟨nofun, fun final same => ?_, nofun⟩
          rw [← Option.some.inj same]
          exact ⟨rfl, next⟩)
        refine ⟨fun visit member => ?_, final, fun faulted => ?_⟩
        · rcases List.mem_cons.mp member with rfl | member
          · exact ⟨rfl, rfl, shape, named, rfl⟩
          · exact visits visit member
        · obtain ⟨visit, member, none⟩ := ended faulted
          exact ⟨visit, List.mem_cons_of_mem _ member, none⟩

theorem replayFixups_append (root : DeviceNode) (front back : List FixupVisit) :
    replayFixups root (front ++ back) = replayFixups (replayFixups root front) back := List.foldl_append

theorem fdtPrepareLoop_visits (names : List CString) (k : Nat) (shape : SameShape start root) :
    (∀ visit ∈ (fdtPrepareLoop names k start).1, ∃ i name, names[i]? = some name ∧
        visit.Of root name (FDT_DTBO_EXTERN_PHANDLE_START + BitVec.ofNat 32 (k + i))) ∧
      (∀ final, (fdtPrepareLoop names k start).2 = some final →
        final = replayFixups start (fdtPrepareLoop names k start).1) ∧
      ((fdtPrepareLoop names k start).2 = none → ∃ visit ∈ (fdtPrepareLoop names k start).1, visit.text = none) := by
  induction names generalizing k start with
  | nil => exact ⟨nofun, fun final same => (Option.some.inj same).symm, nofun⟩
  | cons name names ih =>
    rw [fdtPrepareLoop]
    obtain ⟨visits, final, ended⟩ := @fdtApplyFixups_visits root start name
      (FDT_DTBO_EXTERN_PHANDLE_START + BitVec.ofNat 32 k) k (fixupData start k).length ((fixupData start k).length + 1) none shape
    cases run : fdtApplyFixups name (FDT_DTBO_EXTERN_PHANDLE_START + BitVec.ofNat 32 k) k
      (fixupData start k).length ((fixupData start k).length + 1) none start with
    | mk here done =>
      rw [run] at visits final ended
      cases done with
      | none =>
        exact ⟨fun visit member => ⟨0, name, rfl, visits visit member⟩, nofun, ended⟩
      | some next =>
        obtain ⟨replayed, nextShape⟩ := final next rfl
        obtain ⟨more, last, later⟩ := ih (k + 1) nextShape
        refine ⟨fun visit member => ?_, fun final same => ?_, fun faulted => ?_⟩
        · rcases List.mem_append.mp member with member | member
          · exact ⟨0, name, rfl, visits visit member⟩
          · obtain ⟨i, other, at_, of⟩ := more visit member
            exact ⟨i + 1, other, at_, by rwa [Nat.add_assoc, Nat.add_comm 1 i] at of⟩
        · rw [replayFixups_append, ← replayed]
          exact last final same
        · obtain ⟨visit, member, none⟩ := later faulted
          exact ⟨visit, List.mem_append_right _ member, none⟩

theorem replayFixups_shape {visits : List FixupVisit} (shape : SameShape start root)
    (valid : ∀ visit ∈ visits, ∀ place, visit.place = some place → place.Valid root) :
    SameShape (replayFixups start visits) root := by
  induction visits generalizing start with
  | nil => exact shape
  | cons visit visits ih =>
    exact ih (elim_shape shape (valid visit List.mem_cons_self)) fun other member =>
      valid other (List.mem_cons_of_mem _ member)

/-- A cell keeps its phandle until another fixup goes to it. -/
theorem phandleAt_replay {visits : List FixupVisit} {place : FixupPlace} (shape : SameShape start root) (here : place.Valid root)
    (valid : ∀ visit ∈ visits, ∀ cell, visit.place = some cell → cell.Valid root)
    (apart : ∀ visit ∈ visits, visit.place ≠ some place) :
    phandleAt (replayFixups start visits) place = phandleAt start place := by
  induction visits generalizing start with
  | nil => rfl
  | cons visit visits ih =>
    have first := valid visit List.mem_cons_self
    have other := apart visit List.mem_cons_self
    have next : SameShape (visit.place.elim start (fixupWrite visit.phandle start)) root := elim_shape shape first
    have tail := ih next
      (fun later member => valid later (List.mem_cons_of_mem _ member))
      fun later member => apart later (List.mem_cons_of_mem _ member)
    rw [replayFixups, List.foldl_cons, ← replayFixups, tail]
    cases cell : visit.place with
    | none => rfl
    | some cell_ =>
      rw [cell] at other
      exact phandleAt_other ((first cell_ cell).shape shape) (here.shape shape) (fun same => other (congrArg some same)) _

end Runs

theorem externNode_match (name label : CString) (n phandle : BitVec 32) :
    deviceNodeMatchPhandle (LabelledNode.mk name label false []
      [.mk (cstr "phandle") [] false (cpuToBe32 n) []]).unlabelled phandle = decide (n = phandle) := by
  have read := deviceNodeReadU32_word (cstr "phandle") n
  simp [deviceNodeMatchPhandle, LabelledNode.unlabelled, LabelledNode.unlabelledChild, DeviceNode.child, DeviceNode.name, read]

theorem externNode_search (name label : CString) (n phandle : BitVec 32) :
    deviceNodeSearchPhandle phandle (LabelledNode.mk name label false []
      [.mk (cstr "phandle") [] false (cpuToBe32 n) []]) = none := by
  simp [deviceNodeSearchPhandle, searchPhandle, deviceNodeMatchPhandle, LabelledNode.unlabelled,
    LabelledNode.unlabelledChild, DeviceNode.child]

theorem searchPhandle_extern {names : List CString} {k i : Nat} {name : CString} (few : k + names.length ≤ 2 ^ 32)
    (at_ : names[i]? = some name) :
    ∃ node, searchPhandle (FDT_DTBO_EXTERN_PHANDLE_START + BitVec.ofNat 32 (k + i)) (externNodes names k) = some node ∧
      node.label = name.take 63 := by
  induction names generalizing k i with
  | nil => cases at_
  | cons first names ih =>
    rw [externNodes]
    cases i with
    | zero =>
      obtain rfl : first = name := by simpa using at_
      exact ⟨_, searchPhandle_match (by rw [externNode_match]; simp) _, rfl⟩
    | succ i =>
      have inside := (List.getElem?_eq_some_iff.mp at_).1
      rw [List.length_cons] at few inside
      have other : FDT_DTBO_EXTERN_PHANDLE_START + BitVec.ofNat 32 k ≠
          FDT_DTBO_EXTERN_PHANDLE_START + BitVec.ofNat 32 (k + (i + 1)) := by
        intro same
        have numbers := congrArg BitVec.toNat ((BitVec.add_right_inj _).mp same)
        rw [BitVec.toNat_ofNat, BitVec.toNat_ofNat] at numbers
        omega
      rw [searchPhandle_other (by rw [externNode_match]; exact decide_eq_false other) (externNode_search ..),
        Nat.add_comm i 1, ← Nat.add_assoc]
      exact ih (by omega) (by simpa using at_)

def fixupNames (root : DeviceNode) : List CString :=
  ((deviceNodeFindByname root FDT_SYMBOLS_FIXUP).map fun fixups => fixups.child.map (·.name)).getD []

section Runs

variable {root : DeviceNode} {fixups : DeviceNode}

theorem fdtPrepare_dtbo (found : deviceNodeFindByname root FDT_SYMBOLS_FIXUP = some fixups) (node : fixups.isNode = true) :
    fdtPrepareDtboExterns root = ⟨(fdtPrepareLoop (fixupNames root) 0 root).1, (fdtPrepareLoop (fixupNames root) 0 root).2,
      some (.mk (cstr "/") [] false [] (externNodes (fixupNames root) 0))⟩ := by
  rw [fdtPrepareDtboExterns, found]
  simp [node, fixupNames, found]

theorem fdtPrepare_plain (other : ∀ fixups, deviceNodeFindByname root FDT_SYMBOLS_FIXUP = some fixups → fixups.isNode = false) :
    fdtPrepareDtboExterns root = ⟨[], some root, none⟩ := by
  rw [fdtPrepareDtboExterns]
  cases found : deviceNodeFindByname root FDT_SYMBOLS_FIXUP with
  | none => rfl
  | some fixups => simp [other fixups found]

theorem fdtPrepare_resolved (found : deviceNodeFindByname root FDT_SYMBOLS_FIXUP = some fixups) (node : fixups.isNode = true)
    (named : ∀ name ∈ fixupNames root, name.length ≤ 63) (few : (fixupNames root).length ≤ 2 ^ 32) {final : DeviceNode}
    (done : (fdtPrepareDtboExterns root).root = some final) : (fdtPrepareDtboExterns root).Resolved final := by
  intro earlier visit later place split written untouched
  obtain ⟨visits, last, _⟩ := @fdtPrepareLoop_visits root root (fixupNames root) 0 fun _ => rfl
  rw [fdtPrepare_dtbo found node] at done split ⊢
  dsimp only at done split
  have valid : ∀ other ∈ earlier ++ visit :: later, ∀ cell, other.place = some cell → cell.Valid root := by
    intro other member cell cellAt
    obtain ⟨_, _, _, of⟩ := visits other (by rw [split]; exact member)
    exact of.valid cellAt
  have here := valid visit (by simp) place written
  have before : SameShape (replayFixups root earlier) root := replayFixups_shape (fun _ => rfl) fun other member =>
    valid other (List.mem_append_left _ member)
  obtain ⟨i, name, at_, of⟩ := visits visit (by rw [split]; simp)
  obtain ⟨ext, search, label⟩ := searchPhandle_extern (k := 0) (by omega) at_
  have value : phandleAt final place = some visit.phandle := by
    rw [last final done, split, replayFixups_append, replayFixups, List.foldl_cons, ← replayFixups, written, Option.elim_some,
      phandleAt_replay ((fixupWrite_shape (here.shape before) _).trans before) here
        (fun other member => valid other (List.mem_append_right _ (List.mem_cons_of_mem _ member))) untouched]
    exact phandleAt_write (here.shape before) _
  refine ⟨visit.phandle, ext, _, value, rfl, ?_, ?_⟩
  · rw [of.phandle, deviceNodeSearchPhandle]
    exact search
  · rw [label, of.name]
    exact List.take_of_length_le (named name (List.mem_of_getElem? at_))

end Runs

/-- Fixups go where their strings say, and resolve, exactly if every string that is visited fits. -/
theorem fdtPrepareDtboExterns_right_iff (root : DeviceNode) (named : ∀ name ∈ fixupNames root, name.length ≤ 63)
    (few : (fixupNames root).length ≤ 2 ^ 32) : FixupsRight root ↔ FixupsFit root := by
  by_cases dtbo : ∃ fixups, deviceNodeFindByname root FDT_SYMBOLS_FIXUP = some fixups ∧ fixups.isNode = true
  · obtain ⟨fixups, found, node⟩ := dtbo
    obtain ⟨visits, _, faulted⟩ := @fdtPrepareLoop_visits root root (fixupNames root) 0 fun _ => rfl
    have run := fdtPrepare_dtbo found node
    constructor
    · intro right visit member
      obtain ⟨⟨s, text, place⟩, _⟩ := right.1 visit member
      rw [run] at member
      obtain ⟨_, _, _, of⟩ := visits visit member
      have wrote := of.place
      rw [text, Option.bind_some, ← fixupPlace_shape of.shape, place] at wrote
      exact ⟨s, text, .inr wrote.symm⟩
    · intro fit
      constructor
      · intro visit member
        obtain ⟨s, text, whole⟩ := fit visit member
        rw [run] at member
        obtain ⟨_, _, _, of⟩ := visits visit member
        have wrote := of.place
        rw [text, Option.bind_some, ← fixupPlace_shape of.shape] at wrote
        refine ⟨⟨s, text, wrote.trans ?_⟩, of.only⟩
        rcases whole with short | same
        · rw [List.take_of_length_le short]
        · exact same
      · cases done : (fdtPrepareDtboExterns root).root with
        | none =>
          rw [run] at done
          obtain ⟨visit, member, none⟩ := faulted done
          obtain ⟨s, text, _⟩ := fit visit (by rw [run]; exact member)
          rw [none] at text
          cases text
        | some final => exact ⟨final, rfl, fdtPrepare_resolved found node named few done⟩
  · have plain := fdtPrepare_plain fun fixups found => by
      cases node : fixups.isNode with
      | false => rfl
      | true => exact absurd ⟨fixups, found, node⟩ dtbo
    rw [FixupsRight, FixupsFit, plain]
    refine iff_of_true ⟨nofun, root, rfl, ?_⟩ nofun
    intro earlier visit later place split
    exact absurd split (by simp)

section Examples

/-- A tree with one property of eight bytes, and a fixup for it. -/
def fixupExample (fixup : List Byte) : DeviceNode :=
  .mk [47#8] true [] [.mk (cstr "n") true [] [.mk (cstr "p") false (List.replicate 8 0#8) []],
    .mk FDT_SYMBOLS_FIXUP true [] [.mk (cstr "pio") false fixup []]]

theorem fdtPrepareDtboExterns_one :
    FixupsRight (fixupExample (cstr "/n:p:4" ++ [0#8])) ↔ FixupsFit (fixupExample (cstr "/n:p:4" ++ [0#8])) :=
  fdtPrepareDtboExterns_right_iff _ (by decide) (by decide)

/-- The last digit of the index is the 256th character. -/
theorem fdtPrepareDtboExterns_cut : ¬ FixupsRight (fixupExample (cstr "/n:p:" ++ List.replicate 250 48#8 ++ [52#8, 0#8])) := by
  intro right
  have places : (fdtPrepareDtboExterns (fixupExample (cstr "/n:p:" ++ List.replicate 250 48#8 ++ [52#8, 0#8]))).visits.map
      (fun visit => (visit.place, visit.text.bind (fixupPlace visit.before))) =
      [(some ⟨[cstr "n"], cstr "p", 0⟩, some ⟨[cstr "n"], cstr "p", 4⟩)] := by
    decide +kernel
  obtain ⟨visit, visits, place⟩ := List.map_eq_singleton_iff.mp places
  obtain ⟨⟨s, text, named⟩, _⟩ := right.1 visit (by rw [visits]; simp)
  rw [text, Option.bind_some, ← named] at place
  have same := (Prod.mk.inj place).1.symm.trans (Prod.mk.inj place).2
  exact absurd same (by decide)

end Examples

end ImgEditor
