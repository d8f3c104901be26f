import ImgEditor.Storage.Bytes

namespace ImgEditor

open Storage

def UBIFS_NODE_MAGIC : Nat := 0x06101831
def UBIFS_IDX_NODE : Nat := 9
def UBIFS_S_KEY_BLOCK_BITS : Nat := 29
def UBIFS_S_KEY_HASH_MASK : BitVec 32 := 0x1FFFFFFF

def makeU64 (msb lsb : BitVec 32) : BitVec 64 := (msb.zeroExtend 64 <<< 32) ||| lsb.zeroExtend 64

/-- One entry of an index node; `self_branch` is kept next to it in `BranchEntries`. -/
structure UbiLeafNode where
  key0 : BitVec 32
  key1 : BitVec 32
  selfLnum : BitVec 32
  selfOffs : BitVec 32
deriving DecidableEq, Repr

def UbiLeafNode.key (leaf : UbiLeafNode) : BitVec 64 := makeU64 leaf.key0 leaf.key1

mutual
inductive UbiBranch where
  | mk (level : BitVec 16) (entries : BranchEntries)

/-- `child_leafs`, where an entry whose `self_branch` is set comes with that branch. The list
`child_branches` holds exactly these branches, in entry order. -/
inductive BranchEntries where
  | nil
  | leaf (node : UbiLeafNode) (rest : BranchEntries)
  | branch (node : UbiLeafNode) (selfBranch : UbiBranch) (rest : BranchEntries)
end

def UbiBranch.level : UbiBranch → BitVec 16
  | .mk level _ => level

def UbiBranch.entries : UbiBranch → BranchEntries
  | .mk _ entries => entries

def BranchEntries.isEmpty : BranchEntries → Bool
  | .nil => true
  | _ => false

def BranchEntries.childLeafs : BranchEntries → List UbiLeafNode
  | .nil => []
  | .leaf node rest => node :: rest.childLeafs
  | .branch node _ rest => node :: rest.childLeafs

/-- `list_empty(&child_branches)`. -/
def BranchEntries.noChildBranches : BranchEntries → Bool
  | .nil => true
  | .leaf _ rest => rest.noChildBranches
  | .branch _ _ _ => false

def BranchEntries.ofLeafs : List UbiLeafNode → BranchEntries
  | [] => .nil
  | node :: rest => .leaf node (BranchEntries.ofLeafs rest)

/-- An empty branch still has the zeroed entry that `calloc` made. -/
def ubiBptreeBranchMinKey (b : UbiBranch) : BitVec 64 :=
  match b.entries with
  | .nil => 0
  | .leaf node _ => node.key
  | .branch node _ _ => node.key

mutual
def ubiBptreeBranchMaxKey : UbiBranch → BitVec 64
  | .mk _ entries => lastLeafMaxKey entries

def lastLeafMaxKey : BranchEntries → BitVec 64
  | .nil => 0
  | .leaf node rest => if rest.isEmpty then node.key else lastLeafMaxKey rest
  | .branch _ selfBranch rest =>
    if rest.isEmpty then ubiBptreeBranchMaxKey selfBranch else lastLeafMaxKey rest
end

def ubiLeafMakeKey (keytype : BitVec 8) (key0 hash : BitVec 32) : BitVec 64 :=
  let hash := hash &&& UBIFS_S_KEY_HASH_MASK
  let keytype := keytype &&& 7
  (key0.zeroExtend 64 <<< 32) |||
    ((keytype.zeroExtend 32 <<< UBIFS_S_KEY_BLOCK_BITS) ||| hash).zeroExtend 64

def ubiBptreeBranchFindLeaf (childLeafs : List UbiLeafNode) (keyMin keyMax : BitVec 64) :
    Option UbiLeafNode :=
  match childLeafs with
  | [] => none
  | leaf :: rest =>
    let key := leaf.key
    if keyMin = keyMax ∧ keyMin = key then some leaf
    else if keyMin ≤ key ∧ key ≤ keyMax then some leaf
    else ubiBptreeBranchFindLeaf rest keyMin keyMax

mutual
/-- `ubi_bptree_find` with both keys already made, as every recursive call makes them again. -/
def ubiBptreeFindKeys (keyMin keyMax : BitVec 64) : UbiBranch → Option UbiLeafNode
  | .mk _ entries =>
    if entries.noChildBranches then ubiBptreeBranchFindLeaf entries.childLeafs keyMin keyMax
    else ubiBptreeFindChild keyMin keyMax entries

/-- The `list_for_each_entry` loop over the child branches. -/
def ubiBptreeFindChild (keyMin keyMax : BitVec 64) : BranchEntries → Option UbiLeafNode
  | .nil => none
  | .leaf _ rest => ubiBptreeFindChild keyMin keyMax rest
  | .branch _ b rest =>
    -- the 32 bit mask is complemented as an int, so its sign is extended to 64 bits
    let branchMin := ubiBptreeBranchMinKey b &&& (~~~ UBIFS_S_KEY_HASH_MASK).signExtend 64
    let branchMax := ubiBptreeBranchMaxKey b
    if branchMin > keyMin then none
    else if branchMax < keyMin then ubiBptreeFindChild keyMin keyMax rest
    else if b.entries.noChildBranches then
      match ubiBptreeBranchFindLeaf b.entries.childLeafs keyMin keyMax with
      | some leaf => some leaf
      | none => ubiBptreeFindChild keyMin keyMax rest
    else ubiBptreeFindKeys keyMin keyMax b
end

def ubiBptreeFind (root : UbiBranch) (keytype : BitVec 8) (key0 hashMin hashMax : BitVec 32) :
    Option UbiLeafNode :=
  ubiBptreeFindKeys (ubiLeafMakeKey keytype key0 hashMin) (ubiLeafMakeKey keytype key0 hashMax) root

/-- An index node as `ubi_bptree_load_index_node` leaves it in `self`. -/
structure IndexNode where
  level : BitVec 16
  childLeafs : List UbiLeafNode
deriving DecidableEq, Repr

def ubifsBranchAt (leb : List Byte) (offset : Nat) : UbiLeafNode where
  selfLnum := BitVec.ofNat 32 (leField leb offset 4)
  selfOffs := BitVec.ofNat 32 (leField leb (offset + 4) 4)
  key0 := BitVec.ofNat 32 (leField leb (offset + 12) 4)
  key1 := BitVec.ofNat 32 (leField leb (offset + 16) 4)

/-- `readLeb` gives the data area of a LEB, or none when `ubi_read_leb` or `ubifs_ch_is_good` fails. -/
def ubiBptreeLoadIndexNode (readLeb : BitVec 32 → Option (List Byte)) (fanout : Nat)
    (lnum offs : BitVec 32) : Option IndexNode := do
  let leb ← readLeb lnum
  let node := offs.toNat
  let childCnt := leField leb (node + 24) 2
  if leField leb node 4 ≠ UBIFS_NODE_MAGIC ∨ leField leb (node + 20) 1 ≠ UBIFS_IDX_NODE then none
  else if childCnt > fanout then none
  else some {
    level := BitVec.ofNat 16 (leField leb (node + 26) 2)
    childLeafs := (List.range childCnt).map fun i => ubifsBranchAt leb (node + 28 + 20 * i) }

/-- The loop of `ubi_bptree_load` that loads and links one branch for each entry. -/
def loadChilds (load : BitVec 32 → BitVec 32 → Option UbiBranch) : List UbiLeafNode → Option BranchEntries
  | [] => some .nil
  | leaf :: rest => do
    let child ← load leaf.selfLnum leaf.selfOffs
    let linked ← loadChilds load rest
    return .branch leaf child linked

/-- The index tree below a node, or none when a node cannot be loaded; `fuel` bounds the depth. -/
def ubiBptreeLoad (readLeb : BitVec 32 → Option (List Byte)) (fanout : Nat) :
    Nat → BitVec 32 → BitVec 32 → Option UbiBranch
  | 0, _, _ => none
  | fuel + 1, lnum, offs => do
    let self ← ubiBptreeLoadIndexNode readLeb fanout lnum offs
    if self.level = 0 then return .mk self.level (.ofLeafs self.childLeafs)
    let linked ← loadChilds (ubiBptreeLoad readLeb fanout fuel) self.childLeafs
    return .mk self.level linked

end ImgEditor
