import ImgEditor.Fdt.DeviceTree

namespace ImgEditor

open Storage CText

/-- What a node holds, in order: properties and child nodes, each with what follows it. -/
inductive FdtItems where
  | nil
  | prop (name : CString) (value : List Byte) (rest : FdtItems)
  | node (name : CString) (items rest : FdtItems)

structure FdtTree where
  name : CString
  items : FdtItems

namespace FdtItems

def levels : FdtItems → Nat
  | nil => 0
  | prop _ _ rest => rest.levels
  | node _ items rest => max (items.levels + 1) rest.levels

def NamesFit : FdtItems → Prop
  | nil => True
  | prop name _ rest => (0 < name.length ∧ name.length ≤ 63 ∧ 0#8 ∉ name) ∧ rest.NamesFit
  | node name items rest => (0 < name.length ∧ name.length ≤ 63 ∧ 0#8 ∉ name) ∧ items.NamesFit ∧ rest.NamesFit

def deviceNodes : FdtItems → List DeviceNode
  | nil => []
  | prop name value rest => .mk name false value [] :: rest.deviceNodes
  | node name items rest => .mk name true [] items.deviceNodes :: rest.deviceNodes

end FdtItems

/-- The tree in memory. A root without a name is called `/`. -/
def FdtTree.deviceNode (tree : FdtTree) : DeviceNode :=
  .mk (if tree.name = [] then [47#8] else tree.name) true [] tree.items.deviceNodes

def PaddedTo4 (length : Nat) (padding : List Byte) : Prop :=
  length + padding.length = alignedLength length 4

def fdtToken (tag : BitVec 32) : List Byte := cpuToBe32 tag

def fdtPropToken (value : List Byte) (nameoff : BitVec 32) (padding : List Byte) : List Byte :=
  fdtToken FDT_PROP ++ cpuToBe32 (BitVec.ofNat 32 value.length) ++ cpuToBe32 nameoff ++ value ++ padding

def fdtBeginToken (name : CString) (padding : List Byte) : List Byte :=
  fdtToken FDT_BEGIN_NODE ++ name ++ [0#8] ++ padding

/-- The structure block of some items: their tokens in order, with any number of `FDT_NOP` between them. The name of a
property is an offset into the strings block. -/
inductive FdtEncodes (strings : List Byte) : FdtItems → List Byte → Prop
  | nil : FdtEncodes strings .nil []
  | nop {items : FdtItems} {bytes : List Byte} :
      FdtEncodes strings items bytes → FdtEncodes strings items (fdtToken FDT_NOP ++ bytes)
  | prop {name : CString} {value padding : List Byte} {rest : FdtItems} {bytes : List Byte} (nameoff : BitVec 32) :
      name ++ [0#8] <+: strings.drop nameoff.toNat → PaddedTo4 value.length padding →
      FdtEncodes strings rest bytes →
      FdtEncodes strings (.prop name value rest) (fdtPropToken value nameoff padding ++ bytes)
  | node {name : CString} {padding : List Byte} {items rest : FdtItems} {inner bytes : List Byte} :
      PaddedTo4 (name.length + 1) padding → FdtEncodes strings items inner → FdtEncodes strings rest bytes →
      FdtEncodes strings (.node name items rest)
        (fdtBeginToken name padding ++ inner ++ fdtToken FDT_END_NODE ++ bytes)

/-- A blob with the tree in its structure and strings blocks, wherever they are. -/
structure FdtSerializes (strings bytes dtb : List Byte) (tree : FdtTree) : Prop where
  header : 16 ≤ dtb.length
  encodes : FdtEncodes strings (.node tree.name tree.items .nil) bytes
  struct_at : bytes ++ fdtToken FDT_END <+: dtb.drop (be32 dtb 8).toNat
  strings_at : strings <+: dtb.drop (be32 dtb 12).toNat

def DeviceNode.addChildren (node : DeviceNode) (nodes : List DeviceNode) : DeviceNode :=
  nodes.foldl DeviceNode.addChild node

theorem DeviceNode.addChildren_mk (name : CString) (isNode : Bool) (data : List Byte) (child nodes : List DeviceNode) :
    (DeviceNode.mk name isNode data child).addChildren nodes = .mk name isNode data (child ++ nodes) := by
  induction nodes generalizing child with
  | nil => simp [addChildren]
  | cons node nodes ih => simpa [addChildren, addChild] using ih (child ++ [node])

section Reads

variable {dtb more : List Byte} {offset : Nat}

theorem drop_next {front : List Byte} (at_ : dtb.drop offset = front ++ more) :
    dtb.drop (offset + front.length) = more := by
  rw [← List.drop_drop, at_, List.drop_left]

theorem fdtBytes_at {bytes : List Byte} (at_ : dtb.drop offset = bytes ++ more) (start : offset ≤ dtb.length) :
    fdtBytes dtb offset bytes.length = some bytes := by
  have length := congrArg List.length at_
  rw [List.length_drop, List.length_append] at length
  rw [fdtBytes, if_pos (by omega), field, at_, List.take_left]

theorem drop_inside {front : List Byte} (at_ : dtb.drop offset = front ++ more) (some : front ≠ []) :
    offset + front.length ≤ dtb.length := by
  have length := congrArg List.length at_
  rw [List.length_drop, List.length_append] at length
  have positive := List.length_pos_of_ne_nil some
  omega

theorem fdt32_at {n : BitVec 32} (at_ : dtb.drop offset = cpuToBe32 n ++ more) : fdt32 dtb offset = some n := by
  have length := congrArg List.length at_
  rw [List.length_drop, List.length_append, cpuToBe32_length] at length
  have bytes := fdtBytes_at at_ (by omega)
  rw [cpuToBe32_length] at bytes
  have value := be32_cpuToBe32 n []
  rw [List.append_nil] at value
  rw [fdt32, bytes, Option.map_some, value]

theorem fdtString_at {name : CString} (clean : 0#8 ∉ name) (at_ : dtb.drop offset = name ++ [0#8] ++ more) :
    fdtString dtb offset = some name := by
  have prefix_ : (name ++ [0#8] ++ more).takeWhile (· ≠ 0#8) = name := by
    rw [List.append_assoc, List.takeWhile_append_of_pos]
    · simp
    · intro c member
      simp only [decide_eq_true_eq]
      rintro rfl
      exact clean member
  rw [fdtString, at_, if_pos (by simp), prefix_]

end Reads

def FdtRuns (dtb : List Byte) (st st' : FdtUnflatten) : Prop :=
  ∃ passes, st.offset + 4 * passes ≤ st'.offset ∧
    ∀ fuel, fdtUnflattenLoop dtb (fuel + passes) st = fdtUnflattenLoop dtb fuel st'

theorem FdtRuns.refl (dtb : List Byte) (st : FdtUnflatten) : FdtRuns dtb st st := ⟨0, le_refl _, fun _ => rfl⟩

theorem FdtRuns.trans {dtb : List Byte} {a b c : FdtUnflatten} (first : FdtRuns dtb a b) (second : FdtRuns dtb b c) :
    FdtRuns dtb a c := by
  obtain ⟨m, far, run⟩ := first
  obtain ⟨n, farther, run'⟩ := second
  refine ⟨n + m, by omega, fun fuel => ?_⟩
  rw [← Nat.add_assoc, run, run']

theorem FdtRuns.pass {dtb more : List Byte} {st st' : FdtUnflatten} {tag : BitVec 32}
    (at_ : dtb.drop st.offset = cpuToBe32 tag ++ more) (other : tag ≠ FDT_END)
    (step : fdtUnflattenTag dtb tag st = some st') (far : st.offset + 4 ≤ st'.offset) : FdtRuns dtb st st' := by
  refine ⟨1, by omega, fun fuel => ?_⟩
  rw [fdtUnflattenLoop, fdt32_at at_]
  simp only [Option.bind_eq_bind, Option.bind_some, if_neg other, step]

theorem fdtUnflattenTag_begin (dtb : List Byte) (st : FdtUnflatten) :
    fdtUnflattenTag dtb FDT_BEGIN_NODE st = fdtBeginNode dtb st := rfl

theorem fdtUnflattenTag_prop (dtb : List Byte) (st : FdtUnflatten) :
    fdtUnflattenTag dtb FDT_PROP st = fdtProp dtb st := rfl

section Steps

variable {dtb more : List Byte} {offset : Nat} {stack : List DeviceNode} {root : Option DeviceNode}

theorem FdtRuns.nop (at_ : dtb.drop offset = fdtToken FDT_NOP ++ more) :
    FdtRuns dtb ⟨offset, stack, root⟩ ⟨offset + (fdtToken FDT_NOP).length, stack, root⟩ :=
  FdtRuns.pass at_ (by decide) rfl (le_refl _)

theorem FdtRuns.endNode {st' : FdtUnflatten} (at_ : dtb.drop offset = fdtToken FDT_END_NODE ++ more)
    (ended : fdtEndNode ⟨offset, stack, root⟩ = some st') (next : st'.offset = offset + 4) :
    FdtRuns dtb ⟨offset, stack, root⟩ st' :=
  FdtRuns.pass at_ (by decide) ended (le_of_eq next.symm)

theorem fdtUnflattenLoop_end {fuel : Nat} (at_ : dtb.drop offset = fdtToken FDT_END ++ more) :
    fdtUnflattenLoop dtb (fuel + 1) ⟨offset, stack, root⟩ = FdtUnflatten.finish ⟨offset, stack, root⟩ := by
  rw [fdtUnflattenLoop, fdt32_at at_]
  rfl

theorem FdtRuns.begin {name : CString} {padding : List Byte} (clean : 0#8 ∉ name) (short : name.length ≤ 63)
    (padded : PaddedTo4 (name.length + 1) padding) (room : stack.length + 1 < 32)
    (at_ : dtb.drop offset = fdtBeginToken name padding ++ more) :
    FdtRuns dtb ⟨offset, stack, root⟩ ⟨offset + (fdtBeginToken name padding).length,
      .mk (if name = [] then [47#8] else name) true [] [] :: stack, root⟩ := by
  have shape : dtb.drop offset = cpuToBe32 FDT_BEGIN_NODE ++ (name ++ [0#8] ++ (padding ++ more)) := by
    simpa [fdtBeginToken, fdtToken] using at_
  have named : fdtString dtb (offset + 4) = some name := fdtString_at clean (drop_next shape)
  have fits : (if name = [] then [47#8] else name).take 63 = if name = [] then [47#8] else name := by
    apply List.take_of_length_le
    split
    · decide
    · exact short
  have next : offset + (fdtBeginToken name padding).length = offset + 4 + alignedLength (name.length + 1) 4 := by
    unfold PaddedTo4 at padded
    simp only [fdtBeginToken, fdtToken, List.length_append, cpuToBe32_length, List.length_singleton]
    omega
  have begin : fdtBeginNode dtb ⟨offset, stack, root⟩ =
      some ⟨offset + (fdtBeginToken name padding).length,
        .mk (if name = [] then [47#8] else name) true [] [] :: stack, root⟩ := by
    rw [fdtBeginNode, named, next]
    simp only [Option.bind_eq_bind, Option.bind_some, FDT_MAX_DEPTH, newDeviceNode, fits]
    rw [if_neg (by omega)]
  have far : offset + 4 ≤ offset + (fdtBeginToken name padding).length := by omega
  rw [← fdtUnflattenTag_begin] at begin
  exact FdtRuns.pass shape (by decide) begin far

theorem FdtRuns.prop {name : CString} {value padding strings : List Byte} {nameoff : BitVec 32}
    {node : DeviceNode} {outer : List DeviceNode} (clean : 0#8 ∉ name) (short : name.length ≤ 63)
    (padded : PaddedTo4 value.length padding) (small : dtb.length < 2 ^ 32) (header : 16 ≤ dtb.length)
    (stringsAt : strings <+: dtb.drop (be32 dtb 12).toNat) (named : name ++ [0#8] <+: strings.drop nameoff.toNat)
    (at_ : dtb.drop offset = fdtPropToken value nameoff padding ++ more) :
    FdtRuns dtb ⟨offset, node :: outer, root⟩ ⟨offset + (fdtPropToken value nameoff padding).length,
      node.addChild (.mk name false value []) :: outer, root⟩ := by
  have shape : dtb.drop offset = cpuToBe32 FDT_PROP ++ (cpuToBe32 (BitVec.ofNat 32 value.length) ++
      (cpuToBe32 nameoff ++ (value ++ (padding ++ more)))) := by
    simpa [fdtPropToken, fdtToken] using at_
  have atLen := drop_next shape
  have atOff := drop_next atLen
  have atValue := drop_next atOff
  simp only [cpuToBe32_length] at atLen atOff atValue
  have inside := drop_inside atOff (by simp [← List.length_pos_iff])
  have length : (BitVec.ofNat 32 value.length).toNat = value.length := by
    have lengths := congrArg List.length shape
    simp only [List.length_drop, List.length_append] at lengths
    rw [BitVec.toNat_ofNat, Nat.mod_eq_of_lt (by omega)]
  have strings' : fdt32 dtb 12 = some (be32 dtb 12) := by
    rw [fdt32, fdtBytes, if_pos header, Option.map_some, field, be32_take (by omega), be32_drop]
  have nameAt : fdtString dtb (nameoff.toNat + (be32 dtb 12).toNat) = some name := by
    obtain ⟨after, rest⟩ := stringsAt
    obtain ⟨tail, start⟩ := named
    have inStrings := drop_inside start.symm (by simp)
    have shape : dtb.drop (nameoff.toNat + (be32 dtb 12).toNat) = name ++ [0#8] ++ (tail ++ after) := by
      rw [Nat.add_comm, ← List.drop_drop, ← rest, List.drop_append_of_le_length (by omega), ← start, List.append_assoc]
    exact fdtString_at clean shape
  have data : fdtBytes dtb (offset + 4 + 4 + 4) value.length = some value := by
    rw [cpuToBe32_length] at inside
    exact fdtBytes_at atValue inside
  have next : offset + (fdtPropToken value nameoff padding).length = offset + 12 + alignedLength value.length 4 := by
    unfold PaddedTo4 at padded
    simp only [fdtPropToken, fdtToken, List.length_append, cpuToBe32_length]
    omega
  have step : fdtProp dtb ⟨offset, node :: outer, root⟩ =
      some ⟨offset + (fdtPropToken value nameoff padding).length, node.addChild (.mk name false value []) :: outer, root⟩ := by
    rw [fdtProp, fdt32_at atLen, fdt32_at atOff, strings', next]
    simp only [Option.bind_eq_bind, Option.bind_some, nameAt, length, data, newDeviceNode, List.take_of_length_le short]
  have far : offset + 4 ≤ offset + (fdtPropToken value nameoff padding).length := by omega
  rw [← fdtUnflattenTag_prop] at step
  exact FdtRuns.pass shape (by decide) step far

end Steps

section Run

variable {strings bytes dtb more : List Byte} {items : FdtItems} {offset : Nat} {root : Option DeviceNode}

theorem FdtEncodes.run (encodes : FdtEncodes strings items bytes) (names : items.NamesFit)
    (small : dtb.length < 2 ^ 32) (header : 16 ≤ dtb.length) (stringsAt : strings <+: dtb.drop (be32 dtb 12).toNat)
    (node : DeviceNode) (outer : List DeviceNode) (room : outer.length + 1 + items.levels < 32)
    (at_ : dtb.drop offset = bytes ++ more) :
    FdtRuns dtb ⟨offset, node :: outer, root⟩
      ⟨offset + bytes.length, node.addChildren items.deviceNodes :: outer, root⟩ := by
  induction encodes generalizing offset node outer more with
  | nil => exact FdtRuns.refl _ _
  | nop _ ih =>
    rw [List.append_assoc] at at_
    rw [List.length_append, ← Nat.add_assoc]
    exact (FdtRuns.nop at_).trans (ih names node outer room (drop_next at_))
  | @prop name value padding rest tail nameoff named padded _ ih =>
    obtain ⟨⟨_, short, clean⟩, names⟩ := names
    rw [List.append_assoc] at at_
    rw [List.length_append, ← Nat.add_assoc]
    apply FdtRuns.trans (FdtRuns.prop clean short padded small header stringsAt named at_)
    exact ih names (node.addChild (.mk name false value [])) outer room (drop_next at_)
  | @node name padding items rest inner tail padded _ _ ihInner ih =>
    obtain ⟨⟨some_, short, clean⟩, namesInner, names⟩ := names
    rw [FdtItems.levels] at room
    have named : name ≠ [] := List.ne_nil_of_length_pos some_
    have deeper : (node :: outer).length + 1 + items.levels < 32 := by
      rw [List.length_cons]
      omega
    simp only [List.append_assoc] at at_
    have atInner := drop_next at_
    have atEnd := drop_next atInner
    have opened : (node :: outer).length + 1 < 32 := by
      rw [List.length_cons]
      omega
    have begun := @FdtRuns.begin _ _ _ _ root _ _ clean short padded opened at_
    have ran := ihInner namesInner (.mk name true [] []) (node :: outer) deeper atInner
    rw [DeviceNode.addChildren_mk, List.nil_append] at ran
    have later := ih names (node.addChild (.mk name true [] items.deviceNodes)) outer (by omega) (drop_next atEnd)
    rw [if_neg named] at begun
    simp only [List.length_append, ← Nat.add_assoc]
    exact ((begun.trans ran).trans (FdtRuns.endNode atEnd rfl rfl)).trans later

theorem FdtEncodes.runNil (encodes : FdtEncodes strings .nil bytes) (stack : List DeviceNode)
    (at_ : dtb.drop offset = bytes ++ more) :
    FdtRuns dtb ⟨offset, stack, root⟩ ⟨offset + bytes.length, stack, root⟩ := by
  generalize none_ : FdtItems.nil = items at encodes
  induction encodes generalizing offset more with
  | nil => exact FdtRuns.refl _ _
  | nop _ ih =>
    rw [List.append_assoc] at at_
    rw [List.length_append, ← Nat.add_assoc]
    exact (FdtRuns.nop at_).trans (ih (drop_next at_) none_)
  | prop => cases none_
  | node => cases none_

theorem FdtEncodes.runRoot {tree : FdtTree} (encodes : FdtEncodes strings (.node tree.name tree.items .nil) bytes)
    (clean : 0#8 ∉ tree.name) (short : tree.name.length ≤ 63) (names : tree.items.NamesFit)
    (small : dtb.length < 2 ^ 32) (header : 16 ≤ dtb.length) (stringsAt : strings <+: dtb.drop (be32 dtb 12).toNat)
    (room : 1 + tree.items.levels < 32) (at_ : dtb.drop offset = bytes ++ more) :
    FdtRuns dtb ⟨offset, [], root⟩ ⟨offset + bytes.length, [], some tree.deviceNode⟩ := by
  generalize whole : FdtItems.node tree.name tree.items .nil = items at encodes
  induction encodes generalizing offset more with
  | nil => cases whole
  | prop => cases whole
  | nop _ ih =>
    rw [List.append_assoc] at at_
    rw [List.length_append, ← Nat.add_assoc]
    exact (FdtRuns.nop at_).trans (ih (drop_next at_) whole)
  | @node name padding items rest inner tail padded inside after _ _ =>
    obtain ⟨rfl, rfl, rfl⟩ := FdtItems.node.inj whole
    simp only [List.append_assoc] at at_
    have atInner := drop_next at_
    have atEnd := drop_next atInner
    have opened : ([] : List DeviceNode).length + 1 < 32 := by decide
    have begun := @FdtRuns.begin _ _ _ _ root _ _ clean short padded opened at_
    have ran := @FdtEncodes.run _ _ _ _ _ _ root inside names small header stringsAt
      (.mk (if tree.name = [] then [47#8] else tree.name) true [] []) [] (by simpa using room) atInner
    rw [DeviceNode.addChildren_mk, List.nil_append] at ran
    have later := @FdtEncodes.runNil _ _ _ _ _ (some tree.deviceNode) after [] (drop_next atEnd)
    simp only [List.length_append, ← Nat.add_assoc]
    exact ((begun.trans ran).trans (FdtRuns.endNode atEnd rfl rfl)).trans later

end Run

/-- The unflattened tree is the one that was serialized. -/
theorem fdtUnflatten_serialized {strings bytes dtb : List Byte} {tree : FdtTree}
    (serializes : FdtSerializes strings bytes dtb tree) (limited : dtb.length ≤ FDT_EDITOR_MAX_DTB_SIZE)
    (rootName : tree.name.length ≤ 63 ∧ 0#8 ∉ tree.name) (names : tree.items.NamesFit)
    (depth : 1 + tree.items.levels < 32) : fdtUnflatten dtb dtb.length = some tree.deviceNode := by
  obtain ⟨header, encodes, ⟨more, structAt⟩, stringsAt⟩ := serializes
  have bound : FDT_EDITOR_MAX_DTB_SIZE = 2 ^ 26 := rfl
  have offset : fdt32 dtb 8 = some (be32 dtb 8) := by
    rw [fdt32, fdtBytes, if_pos (by omega), Option.map_some, field, be32_take (by omega), be32_drop]
  have at_ := structAt.symm
  rw [List.append_assoc] at at_
  obtain ⟨passes, few, run⟩ := encodes.runRoot rootName.2 rootName.1 names (by omega) header stringsAt depth at_
  have lengths := congrArg List.length structAt
  simp only [List.length_append, List.length_drop, fdtToken, cpuToBe32_length] at lengths few
  have whole := run (dtb.length - passes - 1 + 1)
  rw [show dtb.length - passes - 1 + 1 + passes = dtb.length by omega, fdtUnflattenLoop_end (drop_next at_)] at whole
  rw [fdtUnflatten, offset]
  exact whole

theorem fdtUnflatten_serialized_small :
    fdtUnflatten (be32Words [0, 0, 16, 68, 4, 1, 0, 3, 3, 0, 0x01020300, 4, 1, 0x6e000000, 2, 2, 9] ++ [97, 0]) 70 =
      some (.mk [47] true [] [.mk [97] false [1, 2, 3] [], .mk [110] true [] []]) := by
  have child : FdtEncodes [97, 0] (.node [110] .nil .nil) _ :=
    @FdtEncodes.node _ _ [0, 0] _ _ _ _ rfl .nil .nil
  have inner : FdtEncodes [97, 0] (.prop [97] [1, 2, 3] (.node [110] .nil .nil)) _ :=
    @FdtEncodes.prop _ _ _ [0] _ _ 0 ⟨[], by decide⟩ rfl child.nop
  have whole : FdtEncodes [97, 0] (.node [] (.prop [97] [1, 2, 3] (.node [110] .nil .nil)) .nil) _ :=
    @FdtEncodes.node _ _ [0, 0, 0] _ _ _ _ rfl inner .nil
  have serializes : FdtSerializes [97, 0] _
      (be32Words [0, 0, 16, 68, 4, 1, 0, 3, 3, 0, 0x01020300, 4, 1, 0x6e000000, 2, 2, 9] ++ [97, 0])
      ⟨[], .prop [97] [1, 2, 3] (.node [110] .nil .nil)⟩ :=
    ⟨by decide, whole.nop, ⟨[97, 0], by decide +kernel⟩, ⟨[], by decide +kernel⟩⟩
  have limited : (70 : Nat) ≤ FDT_EDITOR_MAX_DTB_SIZE := by decide
  exact fdtUnflatten_serialized serializes limited (by decide) (by simp [FdtItems.NamesFit]) (by decide)

end ImgEditor
