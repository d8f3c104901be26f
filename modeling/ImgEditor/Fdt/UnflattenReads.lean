import ImgEditor.Fdt.DeviceTree

namespace ImgEditor

open Storage CText

/-- How a call of `fdt_unflatten` goes on or ends: it returns its tree or an error, or it touches memory that is not
the loaded blob, a slot of the node stack or a node. -/
inductive FdtEnd where
  | returned (root : Option DeviceNode)
  | fault
  | endless

inductive FdtPass where
  | next (st : FdtUnflatten)
  | ended (result : FdtEnd)

/-- `none` stands for a read outside the blob. -/
def FdtPass.reading {α : Type} : Option α → (α → FdtPass) → FdtPass
  | none, _ => .ended .fault
  | some value, rest => rest value

def DEVICE_NODE_SIZE : Int := 176

open FdtPass

def fdtPassBegin (dtb : List Byte) (st : FdtUnflatten) : FdtPass :=
  reading (fdtString dtb (st.offset + 4)) fun name =>
    -- fdt_device_node_stack[depth] = root
    if st.stack.length ≥ FDT_MAX_DEPTH then .ended .fault
    else if st.stack.length + 1 ≥ FDT_MAX_DEPTH then .ended (.returned none)
    else
      let node := newDeviceNode (if name = [] then [47#8] else name) true []
      .next { st with offset := st.offset + 4 + alignedLength (name.length + 1) 4, stack := node :: st.stack }

/-- The part of `FDT_PROP` from `new_device_node` on. -/
def fdtPassPropNode (dtb : List Byte) (st : FdtUnflatten) (name : CString) (len : Int) : FdtPass :=
  -- the sum of sizes wraps to more than calloc gives
  if len < -DEVICE_NODE_SIZE then .ended (.returned none)
  -- the node does not fit what calloc gave
  else if len < 0 then .ended .fault
  else
    reading (fdtBytes dtb (st.offset + 12) len.toNat) fun data =>
      let st := { st with offset := st.offset + 12 + alignedLength len.toNat 4 }
      match st.stack with
      | [] => .next st
      | node :: outer => .next { st with stack := node.addChild (newDeviceNode name false data) :: outer }

def fdtPassProp (dtb : List Byte) (st : FdtUnflatten) : FdtPass :=
  reading (fdt32 dtb (st.offset + 4)) fun len =>
  reading (fdt32 dtb (st.offset + 8)) fun nameoff =>
  reading (fdt32 dtb 12) fun offDtStrings =>
  reading (fdtString dtb (nameoff.toNat + offDtStrings.toNat)) fun name =>
    fdtPassPropNode dtb st name (toInt32 len.toNat)

def fdtPassEndNode (st : FdtUnflatten) : FdtPass :=
  let slot := st.stack.length - 1
  let st := { st with offset := st.offset + 4 }
  match st.stack with
  | [] => .ended (.returned none)
  | node :: outer =>
    if slot ≥ FDT_MAX_DEPTH then .ended .fault
    else match outer with
      | [] => .next { st with stack := [], root := some node }
      | parent :: outer => .next { st with stack := parent.addChild node :: outer }

/-- `fdt_load_symbols` goes through the children of the root without a look whether there is one. -/
def fdtPassEnd (st : FdtUnflatten) : FdtPass :=
  match st.finish with
  | none => .ended .fault
  | some root => .ended (.returned (some root))

def fdtPass (dtb : List Byte) (st : FdtUnflatten) : FdtPass :=
  reading (fdt32 dtb st.offset) fun tag =>
    if tag = FDT_END then fdtPassEnd st
    else if tag = FDT_BEGIN_NODE then fdtPassBegin dtb st
    else if tag = FDT_NOP then .next { st with offset := st.offset + 4 }
    else if tag = FDT_PROP then fdtPassProp dtb st
    else if tag = FDT_END_NODE then fdtPassEndNode st
    else .ended (.returned none)

def fdtUnflattenPasses (dtb : List Byte) : Nat → FdtUnflatten → FdtEnd
  | 0, _ => .endless
  | fuel + 1, st =>
    match fdtPass dtb st with
    | .next st => fdtUnflattenPasses dtb fuel st
    | .ended result => result

/-- `fdt_unflatten`, with what happens on reads outside the blob. -/
def fdtUnflattenEnd (dtb : List Byte) (fuel : Nat) : FdtEnd :=
  match fdt32 dtb 8 with
  | none => .fault
  | some offDtStruct => fdtUnflattenPasses dtb fuel ⟨offDtStruct.toNat, [], none⟩

/-- The call returns, and every read lies in the blob and every use of the node stack in its slots. -/
def FdtSafe (dtb : List Byte) : Prop := ∃ fuel root, fdtUnflattenEnd dtb fuel = .returned root

inductive FdtToken where
  | begin (name : CString)
  | nop
  | prop (len nameoff : BitVec 32) (name : CString)
  | endNode

namespace FdtToken

def tag : FdtToken → BitVec 32
  | begin _ => FDT_BEGIN_NODE
  | nop => FDT_NOP
  | prop _ _ _ => FDT_PROP
  | endNode => FDT_END_NODE

def size : FdtToken → Nat
  | begin name => 4 + alignedLength (name.length + 1) 4
  | nop => 4
  | prop len _ _ => 12 + alignedLength len.toNat 4
  | endNode => 4

def depthAfter (depth : Nat) : FdtToken → Nat
  | begin _ => depth + 1
  | nop => depth
  | prop _ _ _ => depth
  | endNode => depth - 1

def begins : FdtToken → Bool
  | begin _ => true
  | nop => false
  | prop _ _ _ => false
  | endNode => false

/-- The head of the token lies in the blob: its tag, its name and the header of a property. -/
def Head (dtb : List Byte) (offset : Nat) (token : FdtToken) : Prop :=
  fdt32 dtb offset = some token.tag ∧
    match token with
    | begin name => fdtString dtb (offset + 4) = some name
    | prop len nameoff name => fdt32 dtb (offset + 4) = some len ∧ fdt32 dtb (offset + 8) = some nameoff ∧
        ∃ offDtStrings, fdt32 dtb 12 = some offDtStrings ∧
          fdtString dtb (nameoff.toNat + offDtStrings.toNat) = some name
    | _ => True

def Value (dtb : List Byte) (offset : Nat) : FdtToken → Prop
  | prop len _ _ => len.toNat < 2 ^ 31 ∧ offset + 12 + len.toNat ≤ dtb.length
  | _ => True

/-- The token neither opens a 32nd level nor ends a node that was not begun. -/
def Allowed (depth : Nat) : FdtToken → Prop
  | begin _ => depth + 1 < FDT_MAX_DEPTH
  | endNode => 0 < depth
  | _ => True

end FdtToken

/-- At a place in the blob `fdt_unflatten` returns: at the end of the tree once a node was begun, at an unknown tag, at
a token that is not allowed, and at a property so long that its node cannot be allocated. -/
inductive FdtStops (dtb : List Byte) (offset depth : Nat) : Bool → Prop
  | ended : fdt32 dtb offset = some FDT_END → FdtStops dtb offset depth true
  | unknown {begun : Bool} {tag : BitVec 32} : fdt32 dtb offset = some tag → tag ≠ FDT_END →
      (∀ token : FdtToken, tag ≠ token.tag) → FdtStops dtb offset depth begun
  | refused {begun : Bool} {token : FdtToken} : token.Head dtb offset → ¬ token.Allowed depth →
      FdtStops dtb offset depth begun
  | huge {begun : Bool} {len nameoff : BitVec 32} {name : CString} : (FdtToken.prop len nameoff name).Head dtb offset →
      2 ^ 31 ≤ len.toNat → len.toNat + 176 < 2 ^ 32 → FdtStops dtb offset depth begun

/-- From an offset on the blob holds tokens that lie in it completely, up to one where `fdt_unflatten` returns. -/
inductive FdtTokensInside (dtb : List Byte) : Nat → Nat → Bool → Prop
  | stop {offset depth : Nat} {begun : Bool} : FdtStops dtb offset depth begun →
      FdtTokensInside dtb offset depth begun
  | token {offset depth : Nat} {begun : Bool} {token : FdtToken} : token.Head dtb offset → token.Value dtb offset →
      token.Allowed depth →
      FdtTokensInside dtb (offset + token.size) (token.depthAfter depth) (begun || token.begins) →
      FdtTokensInside dtb offset depth begun

def FdtInside (dtb : List Byte) : Prop :=
  ∃ offDtStruct, fdt32 dtb 8 = some offDtStruct ∧ FdtTokensInside dtb offDtStruct.toNat 0 false

structure FdtUnflatten.At (st : FdtUnflatten) (offset depth : Nat) (begun : Bool) : Prop where
  place : st.offset = offset
  level : st.stack.length = depth
  room : depth < FDT_MAX_DEPTH
  started : begun = (st.root.isSome || decide (0 < depth))

theorem toInt32_size {len : BitVec 32} (small : len.toNat < 2 ^ 31) : toInt32 len.toNat = len.toNat :=
  toInt32_of_lt small

theorem toInt32_negative {len : BitVec 32} (large : 2 ^ 31 ≤ len.toNat) : toInt32 len.toNat = len.toNat - 2 ^ 32 := by
  have bound := len.isLt
  unfold toInt32
  rw [Int.bmod_def]
  omega

theorem closeNodes_finish (st : FdtUnflatten) : st.finish = none ↔ st.stack = [] ∧ st.root = none := by
  rcases st with ⟨_, stack, root⟩
  cases stack <;> simp [FdtUnflatten.finish]

section Pass

variable {dtb : List Byte} {st : FdtUnflatten} {offset depth : Nat} {begun : Bool}

theorem reading_some {α : Type} {value : Option α} {rest : α → FdtPass} {pass : FdtPass}
    (read : reading value rest = pass) (good : pass ≠ .ended .fault) : ∃ a, value = some a ∧ rest a = pass := by
  cases value with
  | none => exact absurd read.symm good
  | some a => exact ⟨a, rfl, read⟩

theorem fdtPass_tag {tag : BitVec 32} (read : fdt32 dtb st.offset = some tag) :
    fdtPass dtb st =
      if tag = FDT_END then fdtPassEnd st
      else if tag = FDT_BEGIN_NODE then fdtPassBegin dtb st
      else if tag = FDT_NOP then .next { st with offset := st.offset + 4 }
      else if tag = FDT_PROP then fdtPassProp dtb st
      else if tag = FDT_END_NODE then fdtPassEndNode st
      else .ended (.returned none) := by
  rw [fdtPass, read, reading]

theorem fdtPassProp_head {len nameoff : BitVec 32} {name : CString}
    (head : (FdtToken.prop len nameoff name).Head dtb st.offset) :
    fdtPassProp dtb st = fdtPassPropNode dtb st name (toInt32 len.toNat) := by
  obtain ⟨_, readLen, readOff, strings, readStrings, readName⟩ := head
  rw [fdtPassProp, readLen, reading, readOff, reading, readStrings, reading, readName, reading]

theorem fdtPassPropNode_value {name : CString} {len : Nat} (inside : st.offset + 12 + len ≤ dtb.length) :
    ∃ st', fdtPassPropNode dtb st name len = .next st' ∧ st'.offset = st.offset + 12 + alignedLength len 4 ∧
      st'.stack.length = st.stack.length ∧ st'.root = st.root := by
  have bytes : fdtBytes dtb (st.offset + 12) len = some (field dtb (st.offset + 12) len) := if_pos inside
  have size : DEVICE_NODE_SIZE = 176 := rfl
  rw [fdtPassPropNode, if_neg (by omega), if_neg (by omega), Int.toNat_natCast, bytes]
  rcases st with ⟨offset, stack, root⟩
  rcases stack with _ | ⟨node, outer⟩
  · exact ⟨_, rfl, rfl, rfl, rfl⟩
  · exact ⟨_, rfl, rfl, rfl, rfl⟩

theorem fdtPassEndNode_open (some_ : 0 < st.stack.length) (room : st.stack.length < FDT_MAX_DEPTH) :
    ∃ st', fdtPassEndNode st = .next st' ∧ st'.offset = st.offset + 4 ∧
      st'.stack.length = st.stack.length - 1 ∧ (st'.root.isSome || decide (0 < st.stack.length - 1)) = true := by
  rcases st with ⟨offset, stack, root⟩
  rcases stack with _ | ⟨node, _ | ⟨parent, outer⟩⟩
  · exact absurd some_ (by simp)
  · exact ⟨_, rfl, rfl, rfl, rfl⟩
  · simp only [List.length_cons] at room
    refine ⟨⟨offset + 4, parent.addChild node :: outer, root⟩, ?_, rfl, rfl, by simp⟩
    simp only [fdtPassEndNode, List.length_cons]
    rw [if_neg (by omega)]

theorem fdtPass_token {token : FdtToken} (at_ : st.At offset depth begun) (head : token.Head dtb offset)
    (value : token.Value dtb offset) (allowed : token.Allowed depth) :
    ∃ st', fdtPass dtb st = .next st' ∧
      st'.At (offset + token.size) (token.depthAfter depth) (begun || token.begins) := by
  obtain ⟨rfl, rfl, room, started⟩ := at_
  rw [fdtPass_tag head.1]
  cases token with
  | begin name =>
    have below : st.stack.length + 1 < FDT_MAX_DEPTH := allowed
    refine ⟨⟨st.offset + 4 + alignedLength (name.length + 1) 4,
      newDeviceNode (if name = [] then [47#8] else name) true [] :: st.stack, st.root⟩, ?_, ?_⟩
    · change fdtPassBegin dtb st = _
      rw [fdtPassBegin, head.2, reading, if_neg (by omega), if_neg (by omega)]
    · exact ⟨Nat.add_assoc _ _ _, rfl, below, by simp [FdtToken.begins, FdtToken.depthAfter]⟩
  | nop =>
    refine ⟨⟨st.offset + 4, st.stack, st.root⟩, rfl, rfl, rfl, room, ?_⟩
    rw [FdtToken.begins, Bool.or_false, started]
    rfl
  | prop len nameoff name =>
    obtain ⟨st', pass, next, stack, root⟩ := @fdtPassPropNode_value dtb st name _ value.2
    refine ⟨st', ?_, next.trans (Nat.add_assoc _ _ _), stack, room, ?_⟩
    · change fdtPassProp dtb st = _
      rw [fdtPassProp_head head, toInt32_size value.1, pass]
    · rw [FdtToken.begins, Bool.or_false, started, root]
      rfl
  | endNode =>
    have positive : 0 < st.stack.length := allowed
    obtain ⟨st', pass, next, stack, still⟩ := fdtPassEndNode_open positive room
    refine ⟨st', pass, next, stack, ?_, ?_⟩
    · change st.stack.length - 1 < FDT_MAX_DEPTH
      omega
    · rw [FdtToken.begins, Bool.or_false, started, FdtToken.depthAfter, still]
      simp [positive]

theorem fdtPass_stops (at_ : st.At offset depth begun) (stops : FdtStops dtb offset depth begun) :
    ∃ root, fdtPass dtb st = .ended (.returned root) := by
  obtain ⟨rfl, rfl, room, started⟩ := at_
  cases stops with
  | ended read =>
    rw [fdtPass_tag read, if_pos rfl, fdtPassEnd]
    rcases tree : st.finish with _ | root
    · obtain ⟨empty, none_⟩ := (closeNodes_finish st).mp tree
      rw [empty, none_] at started
      cases started
    · exact ⟨root, rfl⟩
  | @unknown _ tag read notEnd unknown =>
    have notBegin : tag ≠ FDT_BEGIN_NODE := unknown (.begin [])
    have notNop : tag ≠ FDT_NOP := unknown .nop
    have notProp : tag ≠ FDT_PROP := unknown (.prop 0 0 [])
    have notEndNode : tag ≠ FDT_END_NODE := unknown .endNode
    rw [fdtPass_tag read, if_neg notEnd, if_neg notBegin, if_neg notNop, if_neg notProp, if_neg notEndNode]
    exact ⟨none, rfl⟩
  | @refused _ token head refused =>
    rw [fdtPass_tag head.1]
    cases token with
    | begin name =>
      have deep : st.stack.length + 1 ≥ FDT_MAX_DEPTH := Nat.not_lt.mp refused
      exists none
      change fdtPassBegin dtb st = _
      rw [fdtPassBegin, head.2, reading, if_neg (by omega), if_pos deep]
    | nop => exact absurd trivial refused
    | prop => exact absurd trivial refused
    | endNode =>
      have empty : st.stack = [] := List.eq_nil_of_length_eq_zero (Nat.eq_zero_of_not_pos refused)
      exists none
      change fdtPassEndNode st = _
      rw [fdtPassEndNode, empty]
  | @huge _ len nameoff name head large below =>
    have size : DEVICE_NODE_SIZE = 176 := rfl
    exists none
    rw [fdtPass_tag head.1]
    change fdtPassProp dtb st = _
    rw [fdtPassProp_head head, toInt32_negative large, fdtPassPropNode, if_pos (by omega)]

/-- What a pass that does not fault has found at its offset. -/
theorem fdtPass_good {pass : FdtPass} (at_ : st.At offset depth begun) (ran : fdtPass dtb st = pass)
    (good : pass ≠ .ended .fault) :
    (∃ token : FdtToken, token.Head dtb offset ∧ token.Value dtb offset ∧ token.Allowed depth) ∨
      FdtStops dtb offset depth begun := by
  obtain ⟨rfl, rfl, room, started⟩ := at_
  obtain ⟨tag, read, ran⟩ := reading_some ran good
  by_cases isEnd : tag = FDT_END
  · right
    rw [if_pos isEnd, fdtPassEnd] at ran
    rw [isEnd] at read
    rcases tree : st.finish with _ | root
    · rw [tree] at ran
      exact absurd ran.symm good
    · have open_ : ¬ (st.stack = [] ∧ st.root = none) := by
        rw [← closeNodes_finish, tree]
        simp
      have before : begun = true := by
        rw [started]
        rcases st with ⟨_, _ | _, _ | _⟩
        · exact absurd ⟨rfl, rfl⟩ open_
        · rfl
        · rfl
        · rfl
      rw [before]
      exact .ended read
  rw [if_neg isEnd] at ran
  by_cases isBegin : tag = FDT_BEGIN_NODE
  · rw [if_pos isBegin] at ran
    rw [isBegin] at read
    obtain ⟨name, readName, ran⟩ := reading_some ran good
    have head : (FdtToken.begin name).Head dtb st.offset := ⟨read, readName⟩
    by_cases below : st.stack.length + 1 < FDT_MAX_DEPTH
    · exact .inl ⟨.begin name, head, trivial, below⟩
    · exact .inr (.refused head below)
  rw [if_neg isBegin] at ran
  by_cases isNop : tag = FDT_NOP
  · rw [isNop] at read
    exact .inl ⟨.nop, ⟨read, trivial⟩, trivial, trivial⟩
  rw [if_neg isNop] at ran
  by_cases isProp : tag = FDT_PROP
  · rw [if_pos isProp] at ran
    rw [isProp] at read
    obtain ⟨len, readLen, ran⟩ := reading_some ran good
    obtain ⟨nameoff, readOff, ran⟩ := reading_some ran good
    obtain ⟨strings, readStrings, ran⟩ := reading_some ran good
    obtain ⟨name, readName, ran⟩ := reading_some ran good
    have head : (FdtToken.prop len nameoff name).Head dtb st.offset :=
      ⟨read, readLen, readOff, strings, readStrings, readName⟩
    have size : DEVICE_NODE_SIZE = 176 := rfl
    by_cases small : len.toNat < 2 ^ 31
    · rw [toInt32_size small, fdtPassPropNode, if_neg (by omega), if_neg (by omega)] at ran
      obtain ⟨data, readData, _⟩ := reading_some ran good
      have inside : st.offset + 12 + len.toNat ≤ dtb.length := by
        by_contra beyond
        exact nomatch (if_neg beyond).symm.trans readData
      exact .inl ⟨.prop len nameoff name, head, ⟨small, inside⟩, trivial⟩
    · rw [toInt32_negative (by omega), fdtPassPropNode] at ran
      by_cases refused : len.toNat + 176 < 2 ^ 32
      · exact .inr (.huge head (by omega) refused)
      · have bound := len.isLt
        rw [if_neg (by omega), if_pos (by omega)] at ran
        exact absurd ran.symm good
  rw [if_neg isProp] at ran
  by_cases isEndNode : tag = FDT_END_NODE
  · rw [isEndNode] at read
    have head : FdtToken.endNode.Head dtb st.offset := ⟨read, trivial⟩
    by_cases some_ : 0 < st.stack.length
    · exact .inl ⟨.endNode, head, trivial, some_⟩
    · exact .inr (.refused head some_)
  right
  apply FdtStops.unknown read isEnd
  intro token
  cases token with
  | begin => exact isBegin
  | nop => exact isNop
  | prop => exact isProp
  | endNode => exact isEndNode

theorem fdtPass_next {st' : FdtUnflatten} (at_ : st.At offset depth begun) (pass : fdtPass dtb st = .next st') :
    ∃ token : FdtToken, token.Head dtb offset ∧ token.Value dtb offset ∧ token.Allowed depth := by
  rcases fdtPass_good at_ pass (by simp) with token | stops
  · exact token
  · obtain ⟨root, ended⟩ := fdtPass_stops at_ stops
    cases pass.symm.trans ended

theorem fdtPass_returned {root : Option DeviceNode} (at_ : st.At offset depth begun)
    (pass : fdtPass dtb st = .ended (.returned root)) : FdtStops dtb offset depth begun := by
  rcases fdtPass_good at_ pass (by simp) with ⟨token, head, value, allowed⟩ | stops
  · obtain ⟨st', next, _⟩ := fdtPass_token at_ head value allowed
    cases pass.symm.trans next
  · exact stops

end Pass

theorem fdtUnflattenPasses_inside {dtb : List Byte} {offset depth : Nat} {begun : Bool}
    (inside : FdtTokensInside dtb offset depth begun) {st : FdtUnflatten} (at_ : st.At offset depth begun) :
    ∃ fuel root, fdtUnflattenPasses dtb fuel st = .returned root := by
  induction inside generalizing st with
  | stop stops =>
    obtain ⟨root, pass⟩ := fdtPass_stops at_ stops
    exact ⟨1, root, by rw [fdtUnflattenPasses, pass]⟩
  | token head value allowed _ ih =>
    obtain ⟨st', pass, next⟩ := fdtPass_token at_ head value allowed
    obtain ⟨fuel, root, returned⟩ := ih next
    exact ⟨fuel + 1, root, by rw [fdtUnflattenPasses, pass]; exact returned⟩

theorem fdtUnflattenPasses_returned {dtb : List Byte} {fuel : Nat} {st : FdtUnflatten} {root : Option DeviceNode}
    {offset depth : Nat} {begun : Bool} (at_ : st.At offset depth begun)
    (returned : fdtUnflattenPasses dtb fuel st = .returned root) : FdtTokensInside dtb offset depth begun := by
  induction fuel generalizing st offset depth begun with
  | zero => cases returned
  | succ fuel ih =>
    rw [fdtUnflattenPasses] at returned
    rcases pass : fdtPass dtb st with st' | result
    · rw [pass] at returned
      obtain ⟨token, head, value, allowed⟩ := fdtPass_next at_ pass
      obtain ⟨st'', same, next⟩ := fdtPass_token at_ head value allowed
      obtain rfl := FdtPass.next.inj (pass.symm.trans same)
      exact .token head value allowed (ih next returned)
    · rw [pass] at returned
      simp only at returned
      rw [returned] at pass
      exact .stop (fdtPass_returned at_ pass)

section Model

variable {dtb : List Byte} {st : FdtUnflatten}

/-- What is left of a pass when its end is only a tree or none. -/
def FdtPass.plain (dtb : List Byte) (fuel : Nat) : FdtPass → Option DeviceNode
  | .next st => fdtUnflattenLoop dtb fuel st
  | .ended (.returned root) => root
  | .ended _ => none

theorem reading_plain {α : Type} {fuel : Nat} {value : Option α} {rest : α → FdtPass} {rest' : α → Option FdtUnflatten}
    (same : ∀ a, (rest a).plain dtb fuel = (rest' a).bind (fdtUnflattenLoop dtb fuel)) :
    (reading value rest).plain dtb fuel = (value.bind rest').bind (fdtUnflattenLoop dtb fuel) := by
  cases value with
  | none => rfl
  | some a => exact same a

theorem fdtPassPropNode_plain (small : dtb.length < 2 ^ 31) (fuel : Nat) (name : CString) (len : BitVec 32) :
    (fdtPassPropNode dtb st name (toInt32 len.toNat)).plain dtb fuel =
      ((fdtBytes dtb (st.offset + 12) len.toNat).bind fun data =>
        let st := { st with offset := st.offset + 12 + alignedLength len.toNat 4 }
        match st.stack with
        | [] => some st
        | node :: outer => some { st with stack := node.addChild (newDeviceNode name false data) :: outer }).bind
        (fdtUnflattenLoop dtb fuel) := by
  have size : DEVICE_NODE_SIZE = 176 := rfl
  by_cases short : len.toNat < 2 ^ 31
  · rw [toInt32_size short, fdtPassPropNode, if_neg (by omega), if_neg (by omega), Int.toNat_natCast]
    apply reading_plain
    intro data
    rcases st with ⟨offset, stack, root⟩
    cases stack <;> rfl
  · have beyond : fdtBytes dtb (st.offset + 12) len.toNat = none := if_neg (by omega)
    rw [beyond, toInt32_negative (by omega), fdtPassPropNode]
    have bound := len.isLt
    split
    · rfl
    · rw [if_pos (by omega)]
      rfl

theorem fdtPass_plain (small : dtb.length < 2 ^ 31) (room : st.stack.length < FDT_MAX_DEPTH) (fuel : Nat) :
    (fdtPass dtb st).plain dtb fuel = fdtUnflattenLoop dtb (fuel + 1) st := by
  rw [fdtUnflattenLoop, fdtPass]
  rcases fdt32 dtb st.offset with _ | tag
  · rfl
  simp only [reading, Option.bind_eq_bind, Option.bind_some, fdtUnflattenTag]
  by_cases isEnd : tag = FDT_END
  · rw [if_pos isEnd, if_pos isEnd, fdtPassEnd]
    cases st.finish <;> rfl
  rw [if_neg isEnd, if_neg isEnd]
  by_cases isBegin : tag = FDT_BEGIN_NODE
  · rw [if_pos isBegin, if_pos isBegin]
    apply reading_plain
    intro name
    rw [if_neg (by omega)]
    by_cases deep : st.stack.length + 1 ≥ FDT_MAX_DEPTH
    · rw [if_pos deep, if_pos deep]
      rfl
    · rw [if_neg deep, if_neg deep]
      rfl
  rw [if_neg isBegin, if_neg isBegin]
  by_cases isNop : tag = FDT_NOP
  · rw [if_pos isNop, if_pos isNop]
    rfl
  rw [if_neg isNop, if_neg isNop]
  by_cases isProp : tag = FDT_PROP
  · rw [if_pos isProp, if_pos isProp]
    apply reading_plain
    intro len
    apply reading_plain
    intro nameoff
    apply reading_plain
    intro offDtStrings
    apply reading_plain
    intro name
    exact fdtPassPropNode_plain small fuel name len
  rw [if_neg isProp, if_neg isProp]
  by_cases isEndNode : tag = FDT_END_NODE
  · rw [if_pos isEndNode, if_pos isEndNode]
    rcases st with ⟨offset, stack, root⟩
    rcases stack with _ | ⟨node, _ | ⟨parent, outer⟩⟩
    · rfl
    · rfl
    · simp only [List.length_cons] at room
      simp only [fdtPassEndNode, List.length_cons, fdtEndNode]
      rw [if_neg (by omega)]
      rfl
  · rw [if_neg isEndNode, if_neg isEndNode]
    rfl

/-- Without the accesses the passes are those of `fdtUnflatten`. -/
theorem fdtUnflattenPasses_model (small : dtb.length < 2 ^ 31) {offset depth : Nat} {begun : Bool}
    (at_ : st.At offset depth begun) (fuel : Nat) :
    (∀ root, fdtUnflattenPasses dtb fuel st = .returned (some root) ↔ fdtUnflattenLoop dtb fuel st = some root) := by
  induction fuel generalizing st offset depth begun with
  | zero =>
    intro root
    constructor
    · exact nofun
    · exact nofun
  | succ fuel ih =>
    intro root
    rw [← fdtPass_plain small (at_.level ▸ at_.room), fdtUnflattenPasses]
    rcases pass : fdtPass dtb st with st' | result
    · obtain ⟨token, head, value, allowed⟩ := fdtPass_next at_ pass
      obtain ⟨st'', same, next⟩ := fdtPass_token at_ head value allowed
      obtain rfl := FdtPass.next.inj (pass.symm.trans same)
      exact ih next root
    · cases result <;> simp [FdtPass.plain]

end Model

theorem fdtUnflattenEnd_model {dtb : List Byte} (small : dtb.length < 2 ^ 31) (totalsize : Nat) (root : DeviceNode) :
    fdtUnflattenEnd dtb totalsize = .returned (some root) ↔ fdtUnflatten dtb totalsize = some root := by
  rw [fdtUnflattenEnd, fdtUnflatten]
  rcases fdt32 dtb 8 with _ | offDtStruct
  · simp
  · have at_ : (⟨offDtStruct.toNat, [], none⟩ : FdtUnflatten).At offDtStruct.toNat 0 false :=
      ⟨rfl, rfl, by decide, rfl⟩
    exact fdtUnflattenPasses_model small at_ totalsize root

/-- `fdt_unflatten` returns without an access out of bounds exactly on the blobs whose tokens lie in them. -/
theorem fdtUnflatten_safe_iff (dtb : List Byte) : FdtSafe dtb ↔ FdtInside dtb := by
  constructor
  · rintro ⟨fuel, root, returned⟩
    rw [fdtUnflattenEnd] at returned
    rcases read : fdt32 dtb 8 with _ | offDtStruct
    · rw [read] at returned
      cases returned
    · rw [read] at returned
      simp only at returned
      have at_ : (⟨offDtStruct.toNat, [], none⟩ : FdtUnflatten).At offDtStruct.toNat 0 false :=
        ⟨rfl, rfl, by decide, rfl⟩
      exact ⟨offDtStruct, read, fdtUnflattenPasses_returned at_ returned⟩
  · rintro ⟨offDtStruct, read, inside⟩
    have at_ : (⟨offDtStruct.toNat, [], none⟩ : FdtUnflatten).At offDtStruct.toNat 0 false :=
      ⟨rfl, rfl, by decide, rfl⟩
    obtain ⟨fuel, root, returned⟩ := fdtUnflattenPasses_inside inside at_
    exact ⟨fuel, root, by rw [fdtUnflattenEnd, read]; exact returned⟩

/-- A blob that ends in a property of 4096 bytes passes the checks of the header, and its value is read. -/
theorem fdtUnflatten_safe_truncated :
    let dtb := be32Words [FDT_MAGIC, 60, 40, 44, 40, 17, 16, 0, 0, 20, 1, 0, 3, 0x1000, 0]
    fdtCheckHeader dtb = some dtb.length ∧ ¬ FdtSafe dtb := by
  intro dtb
  constructor
  · decide +kernel
  · rintro ⟨fuel, root, returned⟩
    rcases fuel with _ | _ | fuel
    · cases returned
    · cases returned
    · have begins : fdt32 dtb 40 = some FDT_BEGIN_NODE := by decide +kernel
      have named : fdtString dtb 44 = some [] := by decide +kernel
      have first : fdtPass dtb ⟨40, [], none⟩ = .next ⟨48, [newDeviceNode [47] true []], none⟩ := by
        rw [fdtPass_tag begins]
        change fdtPassBegin dtb ⟨40, [], none⟩ = _
        rw [fdtPassBegin, named]
        rfl
      have head : (FdtToken.prop 0x1000 0 []).Head dtb 48 :=
        ⟨by decide +kernel, by decide +kernel, by decide +kernel, 44, by decide +kernel, by decide +kernel⟩
      have beyond : fdtBytes dtb 60 4096 = none := by decide +kernel
      have second : fdtPass dtb ⟨48, [newDeviceNode [47] true []], none⟩ = .ended .fault := by
        rw [fdtPass_tag head.1]
        change fdtPassProp dtb ⟨48, [newDeviceNode [47] true []], none⟩ = _
        rw [fdtPassProp_head head, toInt32_size (by decide), fdtPassPropNode, if_neg (by decide), if_neg (by decide)]
        change FdtPass.reading (fdtBytes dtb 60 4096) _ = _
        rw [beyond]
        rfl
      have start : fdt32 dtb 8 = some 40 := by decide +kernel
      rw [fdtUnflattenEnd, start] at returned
      have faults : fdtUnflattenPasses dtb (fuel + 1 + 1) ⟨40, [], none⟩ = .fault := by
        rw [fdtUnflattenPasses, first]
        simp only
        rw [fdtUnflattenPasses, second]
      cases faults.symm.trans returned

end ImgEditor
