import ImgEditor.Core.BigEndian
import ImgEditor.Core.CInt
import ImgEditor.Core.Dd
import ImgEditor.Core.StringHelper

namespace ImgEditor

open Storage CText

/-- A node or a property of a `struct device_node` tree, without its label. -/
inductive DeviceNode where
  | mk (name : CString) (isNode : Bool) (data : List Byte) (child : List DeviceNode)

namespace DeviceNode

def name : DeviceNode → CString
  | mk name _ _ _ => name

def isNode : DeviceNode → Bool
  | mk _ isNode _ _ => isNode

def data : DeviceNode → List Byte
  | mk _ _ data _ => data

def child : DeviceNode → List DeviceNode
  | mk _ _ _ child => child

def addChild : DeviceNode → DeviceNode → DeviceNode
  | mk name isNode data children, node => mk name isNode data (children ++ [node])

end DeviceNode

/-- The names of `new_device_node` are cut to fit `char name[64]`. -/
def newDeviceNode (name : CString) (isNode : Bool) (data : List Byte) : DeviceNode :=
  .mk (name.take 63) isNode data []

def deviceNodeFindByname (root : DeviceNode) (name : CString) : Option DeviceNode :=
  root.child.find? fun node => decide (node.name = name)

def FDT_MAX_DEPTH : Nat := 32

def deviceNodeFindBypath (root : DeviceNode) (path : CString) : Option DeviceNode :=
  (argvBufferSplitWithDelim path [47#8] FDT_MAX_DEPTH).foldlM deviceNodeFindByname root

def deviceNodeReadU32 (node : DeviceNode) : Option (BitVec 32) :=
  if node.data.length = 4 then some (be32 node.data 0) else none

theorem deviceNodeReadU32_word (name : CString) (n : BitVec 32) :
    deviceNodeReadU32 (.mk name false (cpuToBe32 n) []) = some n := by
  have value := be32_cpuToBe32 n []
  rw [List.append_nil] at value
  rw [deviceNodeReadU32, DeviceNode.data, if_pos (cpuToBe32_length n), value]

def FDT_MAGIC : BitVec 32 := 0xd00dfeed
def FDT_EDITOR_MAX_DTB_SIZE : Nat := 64 <<< 20

def FDT_BEGIN_NODE : BitVec 32 := 1
def FDT_END_NODE : BitVec 32 := 2
def FDT_PROP : BitVec 32 := 3
def FDT_NOP : BitVec 32 := 4
def FDT_END : BitVec 32 := 9

/-! Reads of the loaded tree. A read that leaves the bytes that were read from the file is `none`. -/

def fdtBytes (dtb : List Byte) (offset count : Nat) : Option (List Byte) :=
  if offset + count ≤ dtb.length then some (field dtb offset count) else none

def fdt32 (dtb : List Byte) (offset : Nat) : Option (BitVec 32) :=
  (fdtBytes dtb offset 4).map fun bytes => be32 bytes 0

def fdtString (dtb : List Byte) (offset : Nat) : Option CString :=
  if 0#8 ∈ dtb.drop offset then some ((dtb.drop offset).takeWhile (· ≠ 0#8)) else none

/-- The loop variables of `fdt_unflatten`: the nodes that are still open, the innermost first, and
`fdt->root` once it is closed. A node is appended to its parent when it ends. -/
structure FdtUnflatten where
  offset : Nat
  stack : List DeviceNode
  root : Option DeviceNode

def closeNodes : DeviceNode → List DeviceNode → DeviceNode
  | node, [] => node
  | node, parent :: outer => closeNodes (parent.addChild node) outer

def fdtBeginNode (dtb : List Byte) (st : FdtUnflatten) : Option FdtUnflatten := do
  let name ← fdtString dtb (st.offset + 4)
  if st.stack.length + 1 ≥ FDT_MAX_DEPTH then none
  else
    let node := newDeviceNode (if name = [] then [47#8] else name) true []
    some { st with offset := st.offset + 4 + alignedLength (name.length + 1) 4, stack := node :: st.stack }

def fdtProp (dtb : List Byte) (st : FdtUnflatten) : Option FdtUnflatten := do
  let len ← fdt32 dtb (st.offset + 4)
  let nameoff ← fdt32 dtb (st.offset + 8)
  let offDtStrings ← fdt32 dtb 12
  let name ← fdtString dtb (nameoff.toNat + offDtStrings.toNat)
  let data ← fdtBytes dtb (st.offset + 12) len.toNat
  let st := { st with offset := st.offset + 12 + alignedLength len.toNat 4 }
  match st.stack with
  | [] => some st
  | node :: outer => some { st with stack := node.addChild (newDeviceNode name false data) :: outer }

def fdtEndNode (st : FdtUnflatten) : Option FdtUnflatten :=
  let st := { st with offset := st.offset + 4 }
  match st.stack with
  | [] => none
  | [node] => some { st with stack := [], root := some node }
  | node :: parent :: outer => some { st with stack := parent.addChild node :: outer }

/-- The body of the loop of `fdt_unflatten` for a tag other than `FDT_END`. -/
def fdtUnflattenTag (dtb : List Byte) (tag : BitVec 32) (st : FdtUnflatten) : Option FdtUnflatten :=
  if tag = FDT_BEGIN_NODE then fdtBeginNode dtb st
  else if tag = FDT_NOP then some { st with offset := st.offset + 4 }
  else if tag = FDT_PROP then fdtProp dtb st
  else if tag = FDT_END_NODE then fdtEndNode st
  else none

def FdtUnflatten.finish (st : FdtUnflatten) : Option DeviceNode :=
  match st.stack with
  | [] => st.root
  | node :: outer => some (closeNodes node outer)

/-- Every pass takes at least four bytes, so the size of the tree bounds the passes. -/
def fdtUnflattenLoop (dtb : List Byte) : Nat → FdtUnflatten → Option DeviceNode
  | 0, _ => none
  | fuel + 1, st => do
    let tag ← fdt32 dtb st.offset
    if tag = FDT_END then st.finish
    else
      let st ← fdtUnflattenTag dtb tag st
      fdtUnflattenLoop dtb fuel st

def fdtUnflatten (dtb : List Byte) (totalsize : Nat) : Option DeviceNode := do
  let offDtStruct ← fdt32 dtb 8
  fdtUnflattenLoop dtb totalsize ⟨offDtStruct.toNat, [], none⟩

structure FdtEditorPrivateData where
  dtb : List Byte
  totalsize : Nat
  root : DeviceNode

/-- The checks of `fdt_detect` on the header, and the total size in it. -/
def fdtCheckHeader (hdr : List Byte) : Option Nat := do
  let magic ← fdt32 hdr 0
  let totalsize ← fdt32 hdr 4
  let offDtStruct ← fdt32 hdr 8
  let offDtStrings ← fdt32 hdr 12
  let offMemRsvmap ← fdt32 hdr 16
  if magic ≠ FDT_MAGIC then none
  else if totalsize.toNat = 0 ∨ totalsize.toNat > FDT_EDITOR_MAX_DTB_SIZE then none
  else if offDtStrings.toNat > FDT_EDITOR_MAX_DTB_SIZE then none
  else if offDtStruct.toNat > FDT_EDITOR_MAX_DTB_SIZE then none
  else if offMemRsvmap.toNat > FDT_EDITOR_MAX_DTB_SIZE then none
  else some totalsize.toNat

def fdtDetect (fd : Fd) : Option FdtEditorPrivateData := do
  let (hdr, fd) := fd.read 40
  let totalsize ← fdtCheckHeader hdr
  let dtb := ((fd.fileseek 0).read totalsize).1
  let root ← fdtUnflatten dtb totalsize
  return ⟨dtb, totalsize, root⟩

def fdtEditorDetect (fd : Fd) : Option FdtEditorPrivateData := fdtDetect fd

section Prefix

variable {short long : List Byte} (extends_ : short <+: long)
include extends_

theorem fdtBytes_extend {offset count : Nat} {bytes : List Byte} (read : fdtBytes short offset count = some bytes) :
    fdtBytes long offset count = some bytes := by
  obtain ⟨more, rfl⟩ := extends_
  unfold fdtBytes at read ⊢
  split at read
  · rename_i inside
    rw [if_pos (by rw [List.length_append]; omega), ← read, field, field,
      List.drop_append_of_le_length (by omega), List.take_append_of_le_length (by rw [List.length_drop]; omega)]
  · cases read

theorem fdt32_extend {offset : Nat} {n : BitVec 32} (read : fdt32 short offset = some n) :
    fdt32 long offset = some n := by
  unfold fdt32 at read ⊢
  obtain ⟨bytes, found, value⟩ := Option.map_eq_some_iff.mp read
  rw [fdtBytes_extend extends_ found, Option.map_some, value]

theorem fdtString_extend {offset : Nat} {s : CString} (read : fdtString short offset = some s) :
    fdtString long offset = some s := by
  obtain ⟨more, rfl⟩ := extends_
  unfold fdtString at read ⊢
  split at read
  · rename_i ended
    have inside : offset ≤ short.length := by
      by_contra beyond
      rw [List.drop_of_length_le (by omega)] at ended
      exact absurd ended List.not_mem_nil
    have joined : (short ++ more).drop offset = short.drop offset ++ more :=
      List.drop_append_of_le_length inside
    rw [if_pos (by rw [joined]; exact List.mem_append_left _ ended), ← read, joined, List.takeWhile_append, if_neg]
    intro whole
    have all := (List.takeWhile_prefix (fun c : Byte => decide (c ≠ 0#8))).eq_of_length whole
    have last := List.mem_takeWhile_imp (all ▸ ended)
    simp at last
  · cases read

theorem fdtProp_extend {st st' : FdtUnflatten} (step : fdtProp short st = some st') : fdtProp long st = some st' := by
  obtain ⟨len, readLen, step⟩ := Option.bind_eq_some_iff.mp step
  obtain ⟨nameoff, readOff, step⟩ := Option.bind_eq_some_iff.mp step
  obtain ⟨strings, readStrings, step⟩ := Option.bind_eq_some_iff.mp step
  obtain ⟨name, readName, step⟩ := Option.bind_eq_some_iff.mp step
  obtain ⟨data, readData, step⟩ := Option.bind_eq_some_iff.mp step
  apply Option.bind_eq_some_iff.mpr ⟨len, fdt32_extend extends_ readLen, _⟩
  apply Option.bind_eq_some_iff.mpr ⟨nameoff, fdt32_extend extends_ readOff, _⟩
  apply Option.bind_eq_some_iff.mpr ⟨strings, fdt32_extend extends_ readStrings, _⟩
  apply Option.bind_eq_some_iff.mpr ⟨name, fdtString_extend extends_ readName, _⟩
  exact Option.bind_eq_some_iff.mpr ⟨data, fdtBytes_extend extends_ readData, step⟩

theorem fdtUnflattenTag_extend {tag : BitVec 32} {st st' : FdtUnflatten}
    (step : fdtUnflattenTag short tag st = some st') : fdtUnflattenTag long tag st = some st' := by
  unfold fdtUnflattenTag at step ⊢
  split at step
  · rename_i begin
    rw [if_pos begin]
    obtain ⟨name, read, result⟩ := Option.bind_eq_some_iff.mp step
    exact Option.bind_eq_some_iff.mpr ⟨name, fdtString_extend extends_ read, result⟩
  · rename_i other
    rw [if_neg other]
    split at step
    · rename_i nop
      rw [if_pos nop, step]
    · rename_i nop
      rw [if_neg nop]
      split at step
      · rename_i prop
        rw [if_pos prop]
        exact fdtProp_extend extends_ step
      · rename_i prop
        rw [if_neg prop, step]

theorem fdtUnflattenLoop_extend {fuel : Nat} {st : FdtUnflatten} {root : DeviceNode}
    (read : fdtUnflattenLoop short fuel st = some root) : fdtUnflattenLoop long fuel st = some root := by
  induction fuel generalizing st with
  | zero => cases read
  | succ fuel ih =>
    rw [fdtUnflattenLoop] at read ⊢
    obtain ⟨tag, readTag, rest⟩ := Option.bind_eq_some_iff.mp read
    apply Option.bind_eq_some_iff.mpr
    exists tag
    constructor
    · exact fdt32_extend extends_ readTag
    · split at rest
      · rename_i ended
        rw [if_pos ended, rest]
      · rename_i more
        rw [if_neg more]
        obtain ⟨next, step, later⟩ := Option.bind_eq_some_iff.mp rest
        exact Option.bind_eq_some_iff.mpr ⟨next, fdtUnflattenTag_extend extends_ step, ih later⟩

theorem fdtUnflatten_extend {totalsize : Nat} {root : DeviceNode} (read : fdtUnflatten short totalsize = some root) :
    fdtUnflatten long totalsize = some root := by
  obtain ⟨offDtStruct, readOff, rest⟩ := Option.bind_eq_some_iff.mp read
  exact Option.bind_eq_some_iff.mpr ⟨_, fdt32_extend extends_ readOff, fdtUnflattenLoop_extend extends_ rest⟩

theorem fdtCheckHeader_extend {totalsize : Nat} (checked : fdtCheckHeader short = some totalsize) :
    fdtCheckHeader long = some totalsize := by
  obtain ⟨magic, readMagic, checked⟩ := Option.bind_eq_some_iff.mp checked
  obtain ⟨size, readSize, checked⟩ := Option.bind_eq_some_iff.mp checked
  obtain ⟨struct_, readStruct, checked⟩ := Option.bind_eq_some_iff.mp checked
  obtain ⟨strings, readStrings, checked⟩ := Option.bind_eq_some_iff.mp checked
  obtain ⟨rsvmap, readRsvmap, checked⟩ := Option.bind_eq_some_iff.mp checked
  simp only [fdtCheckHeader, fdt32_extend extends_ readMagic, fdt32_extend extends_ readSize,
    fdt32_extend extends_ readStruct, fdt32_extend extends_ readStrings, fdt32_extend extends_ readRsvmap]
  exact checked

end Prefix

theorem File.readAt_extend {f g : File} {pos pos' : Nat} (count : Nat)
    (inside : g.size - pos' ≤ f.size - pos) (same : ∀ i, i < g.size - pos' → g.byte (pos' + i) = f.byte (pos + i)) :
    g.readAt pos' count <+: f.readAt pos count := by
  have stretch : min count (f.size - pos) =
      min count (g.size - pos') + (min count (f.size - pos) - min count (g.size - pos')) := by omega
  rw [File.readAt, File.readAt, stretch, File.slice_add]
  have start : g.slice pos' (min count (g.size - pos')) = f.slice pos (min count (g.size - pos')) := by
    apply File.slice_congr
    intro i bound
    exact same i (by omega)
  rw [start]
  exact List.prefix_append _ _

theorem fdtDetect_eq (f : File) (start : Nat) (small : start < 2 ^ 63) : fdtDetect ⟨f, start, start⟩ =
    (fdtCheckHeader (f.readAt start 40)).bind fun totalsize =>
      (fdtUnflatten (f.readAt start (min totalsize 0x7ffff000)) totalsize).map fun root =>
        ⟨f.readAt start (min totalsize 0x7ffff000), totalsize, root⟩ := by
  have seek : (((⟨f, start, start⟩ : Fd).read 40).2.fileseek 0).pos = start := Fd.fileseek_pos _ _ small
  have again : ∀ count, ((((⟨f, start, start⟩ : Fd).read 40).2.fileseek 0).read count).1 =
      f.readAt start (min count 0x7ffff000) := by
    intro count
    rw [Fd.read, seek, Fd.fileseek_file, Fd.read_file]
  have header : ((⟨f, start, start⟩ : Fd).read 40).1 = f.readAt start 40 := rfl
  simp only [fdtDetect, again, header, Option.bind_eq_bind]
  congr 1
  funext totalsize
  cases fdtUnflatten (f.readAt start (min totalsize 0x7ffff000)) totalsize <;> rfl

/-- What `fdt_detect` makes of a tree does not depend on what is stored behind it. -/
theorem fdtDetect_inside {f g : File} {start : Nat} {fdt : FdtEditorPrivateData}
    (inside : start + g.size ≤ f.size) (small : start < 2 ^ 63)
    (same : ∀ i, i < g.size → g.byte i = f.byte (start + i)) (detected : fdtDetect ⟨g, 0, 0⟩ = some fdt) :
    ∃ fdt', fdtDetect ⟨f, start, start⟩ = some fdt' ∧ fdt'.root = fdt.root := by
  have starts : ∀ count, g.readAt 0 count <+: f.readAt start count := by
    intro count
    apply File.readAt_extend count (by omega)
    intro i bound
    rw [Nat.zero_add]
    exact same i (by omega)
  rw [fdtDetect_eq g 0 (by decide)] at detected
  obtain ⟨totalsize, checked, rest⟩ := Option.bind_eq_some_iff.mp detected
  obtain ⟨root, read, rfl⟩ := Option.map_eq_some_iff.mp rest
  have checkedThere := fdtCheckHeader_extend (starts _) checked
  have readThere := fdtUnflatten_extend (starts _) read
  exists ⟨f.readAt start (min totalsize 0x7ffff000), totalsize, root⟩
  constructor
  · rw [fdtDetect_eq f start small, checkedThere, Option.bind_some, readThere, Option.map_some]
  · rfl

end ImgEditor
