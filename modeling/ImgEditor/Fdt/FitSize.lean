import ImgEditor.Core.Structure
import ImgEditor.Fdt.DeviceTree
import Mathlib.Order.Bounds.Basic

namespace ImgEditor

open Storage CText

def fitImageWord (image : DeviceNode) (name : CString) : Option (BitVec 32) :=
  (deviceNodeFindByname image name).bind deviceNodeReadU32

/-- The loop of `fit_get_total_size`. The sum of the two words has 32 bits before it is an `int64_t`. -/
def fitSizeLoop : Nat → List DeviceNode → Option Nat
  | maxsz, [] => some maxsz
  | maxsz, image :: rest => do
    let dataSize ← fitImageWord image (cstr "data-size")
    let dataPos ← fitImageWord image (cstr "data-position")
    let endp := (dataPos + dataSize).toNat
    fitSizeLoop (if endp > maxsz then endp else maxsz) rest

/-- `fit_get_total_size`, with a negative result as `none`. -/
def fitGetTotalSize (fit : FdtEditorPrivateData) : Option Nat := do
  let images ← deviceNodeFindBypath fit.root (cstr "/images")
  fitSizeLoop fit.totalsize images.child

/-- An image ends at `n`. -/
def ImageEnd (image : DeviceNode) (n : Nat) : Prop :=
  ∃ size pos, fitImageWord image (cstr "data-size") = some size ∧ fitImageWord image (cstr "data-position") = some pos ∧
    n = pos.toNat + size.toNat

def fitImages (images : DeviceNode) : List DeviceNode := images.child.filter DeviceNode.isNode

/-- A property of a tree has no child. -/
inductive DeviceNode.LeafProps : DeviceNode → Prop where
  | mk {name : CString} {isNode : Bool} {data : List Byte} {child : List DeviceNode}
      (leaf : isNode = false → child = []) (rest : ∀ node ∈ child, LeafProps node) :
      LeafProps (.mk name isNode data child)

/-- A tree with images that carry their place, and a total size of 32 bits. -/
structure FitTree (fit : FdtEditorPrivateData) (images : DeviceNode) : Prop where
  found : deviceNodeFindBypath fit.root (cstr "/images") = some images
  carried : ∀ image ∈ fitImages images, ∃ n, ImageEnd image n
  leaves : fit.root.LeafProps
  header : fit.totalsize < 2 ^ 32

def FitTotalRight (fit : FdtEditorPrivateData) (images : DeviceNode) : Prop :=
  ∃ total, fitGetTotalSize fit = some total ∧
    IsGreatest {n | n = fit.totalsize ∨ ∃ image ∈ fitImages images, ImageEnd image n} total

/-- The node of the images has no property, and no image ends behind the 32 bit positions. -/
def FitTotalFits (images : DeviceNode) : Prop :=
  (∀ node ∈ images.child, node.isNode = true) ∧ ∀ image ∈ fitImages images, ∀ n, ImageEnd image n → n < 2 ^ 32

section Loop

def imageEndp (image : DeviceNode) : Nat :=
  ((fitImageWord image (cstr "data-position")).getD 0 + (fitImageWord image (cstr "data-size")).getD 0).toNat

theorem ImageEnd.endp {image : DeviceNode} {n : Nat} (ends : ImageEnd image n) : imageEndp image = n % 2 ^ 32 := by
  obtain ⟨size, pos, sized, placed, rfl⟩ := ends
  rw [imageEndp, sized, placed, Option.getD_some, Option.getD_some, BitVec.toNat_add]

theorem fitSizeLoop_missing {maxsz : Nat} {l : List DeviceNode} {image : DeviceNode} (member : image ∈ l)
    (missing : fitImageWord image (cstr "data-size") = none) : fitSizeLoop maxsz l = none := by
  induction l generalizing maxsz with
  | nil => cases member
  | cons first l ih =>
    rw [fitSizeLoop]
    cases member with
    | head => rw [missing]; rfl
    | tail _ member =>
      cases fitImageWord first (cstr "data-size") with
      | none => rfl
      | some size =>
        cases fitImageWord first (cstr "data-position") with
        | none => rfl
        | some pos => exact ih member

/-- The loop finds the greatest of the sums that it forms. -/
theorem fitSizeLoop_greatest (maxsz : Nat) {l : List DeviceNode} (carried : ∀ image ∈ l, ∃ n, ImageEnd image n) :
    ∃ total, fitSizeLoop maxsz l = some total ∧
      IsGreatest {n | n = maxsz ∨ ∃ image ∈ l, n = imageEndp image} total := by
  induction l generalizing maxsz with
  | nil => exact ⟨maxsz, rfl, .inl rfl, fun n bound => (bound.resolve_right (by simp)).le⟩
  | cons image l ih =>
    have ⟨here, rest⟩ := List.forall_mem_cons.mp carried
    obtain ⟨_, size, pos, sized, placed, _⟩ := here
    have endp : imageEndp image = (pos + size).toNat := by rw [imageEndp, sized, placed]; rfl
    obtain ⟨total, loop, member, upper⟩ := ih (if (pos + size).toNat > maxsz then (pos + size).toNat else maxsz) rest
    refine ⟨total, ?_, ?_, ?_⟩
    · rw [fitSizeLoop, sized, placed]
      exact loop
    · cases member with
      | inl first =>
        rw [first]
        split
        · exact .inr ⟨image, List.mem_cons_self, endp.symm⟩
        · exact .inl rfl
      | inr later =>
        obtain ⟨other, member, value⟩ := later
        exact .inr ⟨other, List.mem_cons_of_mem _ member, value⟩
    · have start := upper (.inl rfl)
      intro n bound
      cases bound with
      | inl first =>
        rw [first]
        split at start <;> omega
      | inr later =>
        obtain ⟨other, member, value⟩ := later
        cases member with
        | head =>
          rw [value, endp]
          split at start <;> omega
        | tail _ member => exact upper (.inr ⟨other, member, value⟩)

end Loop

section Detected

/-- The open nodes and the root of a run of `fdt_unflatten`. -/
structure FdtUnflatten.LeafProps (st : FdtUnflatten) : Prop where
  stack : ∀ node ∈ st.stack, node.isNode = true ∧ node.LeafProps
  root : ∀ node, st.root = some node → node.LeafProps

theorem newDeviceNode_leafProps (name : CString) (isNode : Bool) (data : List Byte) :
    (newDeviceNode name isNode data).LeafProps := .mk (fun _ => rfl) (List.forall_mem_nil _)

theorem DeviceNode.LeafProps.addChild {parent node : DeviceNode} (leaves : parent.LeafProps) (open_ : parent.isNode = true)
    (child : node.LeafProps) : (parent.addChild node).LeafProps := by
  cases leaves with
  | mk leaf rest =>
    refine .mk (fun prop => nomatch open_.symm.trans prop) fun other member => ?_
    cases List.mem_append.mp member with
    | inl before => exact rest other before
    | inr last => rwa [List.mem_singleton.mp last]

theorem addChild_isNode (parent node : DeviceNode) : (parent.addChild node).isNode = parent.isNode := by
  cases parent
  rfl

theorem closeNodes_leafProps {node : DeviceNode} {stack : List DeviceNode} (leaves : node.LeafProps)
    (held : ∀ parent ∈ stack, parent.isNode = true ∧ parent.LeafProps) : (closeNodes node stack).LeafProps := by
  induction stack generalizing node with
  | nil => exact leaves
  | cons parent outer ih =>
    have ⟨first, rest⟩ := List.forall_mem_cons.mp held
    exact ih (first.2.addChild first.1 leaves) rest

theorem fdtEndNode_leafProps {st st' : FdtUnflatten} (step : fdtEndNode st = some st') (leaves : st.LeafProps) :
    st'.LeafProps := by
  have held := leaves.stack
  rw [fdtEndNode] at step
  cases nodes : st.stack with
  | nil =>
    simp only [nodes] at step
    cases step
  | cons node outer =>
    rw [nodes] at held
    have ⟨first, rest⟩ := List.forall_mem_cons.mp held
    cases outer with
    | nil =>
      simp only [nodes] at step
      cases step
      refine ⟨List.forall_mem_nil _, fun root same => ?_⟩
      rw [← Option.some.inj same]
      exact first.2
    | cons parent outer =>
      simp only [nodes] at step
      cases step
      have ⟨second, rest⟩ := List.forall_mem_cons.mp rest
      have extended := second.2.addChild second.1 first.2
      exact ⟨List.forall_mem_cons.mpr ⟨⟨(addChild_isNode _ _).trans second.1, extended⟩, rest⟩, leaves.root⟩

theorem fdtUnflattenTag_leafProps {dtb : List Byte} {tag : BitVec 32} {st st' : FdtUnflatten}
    (step : fdtUnflattenTag dtb tag st = some st') (leaves : st.LeafProps) : st'.LeafProps := by
  unfold fdtUnflattenTag at step
  split at step
  · obtain ⟨name, _, step⟩ := Option.bind_eq_some_iff.mp step
    split at step
    · cases step
    · cases step
      exact ⟨List.forall_mem_cons.mpr ⟨⟨rfl, newDeviceNode_leafProps _ _ _⟩, leaves.stack⟩, leaves.root⟩
  · split at step
    · cases step
      exact ⟨leaves.stack, leaves.root⟩
    · split at step
      · obtain ⟨_, _, step⟩ := Option.bind_eq_some_iff.mp step
        obtain ⟨_, _, step⟩ := Option.bind_eq_some_iff.mp step
        obtain ⟨_, _, step⟩ := Option.bind_eq_some_iff.mp step
        obtain ⟨name, _, step⟩ := Option.bind_eq_some_iff.mp step
        obtain ⟨data, _, step⟩ := Option.bind_eq_some_iff.mp step
        have held := leaves.stack
        cases nodes : st.stack with
        | nil =>
          simp only [nodes] at step
          cases step
          exact ⟨List.forall_mem_nil _, leaves.root⟩
        | cons node outer =>
          rw [nodes] at held
          simp only [nodes] at step
          cases step
          have ⟨first, rest⟩ := List.forall_mem_cons.mp held
          have extended := first.2.addChild first.1 (newDeviceNode_leafProps name false data)
          exact ⟨List.forall_mem_cons.mpr ⟨⟨(addChild_isNode _ _).trans first.1, extended⟩, rest⟩, leaves.root⟩
      · split at step
        · exact fdtEndNode_leafProps step leaves
        · cases step

theorem fdtUnflattenLoop_leafProps {dtb : List Byte} {fuel : Nat} {st : FdtUnflatten} {root : DeviceNode}
    (run : fdtUnflattenLoop dtb fuel st = some root) (leaves : st.LeafProps) : root.LeafProps := by
  induction fuel generalizing st with
  | zero => cases run
  | succ fuel ih =>
    obtain ⟨tag, _, run⟩ := Option.bind_eq_some_iff.mp run
    split at run
    · have held := leaves.stack
      rw [FdtUnflatten.finish] at run
      cases nodes : st.stack with
      | nil =>
        simp only [nodes] at run
        exact leaves.root root run
      | cons node outer =>
        rw [nodes] at held
        simp only [nodes] at run
        have ⟨first, rest⟩ := List.forall_mem_cons.mp held
        rw [← Option.some.inj run]
        exact closeNodes_leafProps first.2 rest
    · obtain ⟨next, step, run⟩ := Option.bind_eq_some_iff.mp run
      exact ih run (fdtUnflattenTag_leafProps step leaves)

theorem fdtCheckHeader_totalsize {hdr : List Byte} {totalsize : Nat} (checked : fdtCheckHeader hdr = some totalsize) :
    totalsize ≤ FDT_EDITOR_MAX_DTB_SIZE := by
  obtain ⟨magic, _, checked⟩ := Option.bind_eq_some_iff.mp checked
  obtain ⟨size, _, checked⟩ := Option.bind_eq_some_iff.mp checked
  obtain ⟨_, _, checked⟩ := Option.bind_eq_some_iff.mp checked
  obtain ⟨_, _, checked⟩ := Option.bind_eq_some_iff.mp checked
  obtain ⟨_, _, checked⟩ := Option.bind_eq_some_iff.mp checked
  split at checked
  · cases checked
  · split at checked
    · cases checked
    · rename_i small
      have bound := not_lt.mp (not_or.mp small).2
      split_ifs at checked
      rwa [← Option.some.inj checked]

/-- What `fdt_detect` finds is such a tree, if its images carry their place. -/
theorem fdtDetect_tree {fd : Fd} {fit : FdtEditorPrivateData} {images : DeviceNode} (detected : fdtDetect fd = some fit)
    (found : deviceNodeFindBypath fit.root (cstr "/images") = some images)
    (carried : ∀ image ∈ fitImages images, ∃ n, ImageEnd image n) : FitTree fit images := by
  obtain ⟨totalsize, checked, detected⟩ := Option.bind_eq_some_iff.mp detected
  obtain ⟨root, unflattened, detected⟩ := Option.bind_eq_some_iff.mp detected
  obtain ⟨offset, _, run⟩ := Option.bind_eq_some_iff.mp unflattened
  cases detected
  refine ⟨found, carried, fdtUnflattenLoop_leafProps run ⟨List.forall_mem_nil _, fun node none => nomatch none⟩, ?_⟩
  have small : FDT_EDITOR_MAX_DTB_SIZE < 2 ^ 32 := by decide
  exact (fdtCheckHeader_totalsize checked).trans_lt small

end Detected

section Total

variable {fit : FdtEditorPrivateData} {images : DeviceNode}

theorem DeviceNode.LeafProps.child {node child : DeviceNode} (leaves : node.LeafProps) (member : child ∈ node.child) :
    child.LeafProps := by
  cases leaves with
  | mk leaf rest => exact rest child member

theorem DeviceNode.LeafProps.leaf {node : DeviceNode} (leaves : node.LeafProps) (prop : node.isNode = false) :
    node.child = [] := by
  cases leaves with
  | mk leaf rest => exact leaf prop

theorem deviceNodeFindByname_child {root node : DeviceNode} {name : CString}
    (found : deviceNodeFindByname root name = some node) : node ∈ root.child := List.mem_of_find?_eq_some found

theorem deviceNodeFindBypath_leafProps {root node : DeviceNode} {path : CString}
    (found : deviceNodeFindBypath root path = some node) (leaves : root.LeafProps) : node.LeafProps := by
  rw [deviceNodeFindBypath] at found
  generalize argvBufferSplitWithDelim path [47#8] FDT_MAX_DEPTH = names at found
  induction names generalizing root with
  | nil =>
    cases found
    exact leaves
  | cons name names ih =>
    obtain ⟨child, first, rest⟩ := Option.bind_eq_some_iff.mp found
    exact ih (leaves.child (deviceNodeFindByname_child first)) rest

/-- What the loop compares is where the images end, if they all end inside the 32 bit positions. -/
theorem imageEndp_ends {l : List DeviceNode} (carried : ∀ image ∈ l, ∃ n, ImageEnd image n)
    (small : ∀ image ∈ l, ∀ n, ImageEnd image n → n < 2 ^ 32) (n : Nat) :
    (∃ image ∈ l, n = imageEndp image) ↔ ∃ image ∈ l, ImageEnd image n := by
  constructor
  · intro ⟨image, member, value⟩
    obtain ⟨m, ends⟩ := carried image member
    rw [value, ends.endp, Nat.mod_eq_of_lt (small image member m ends)]
    exact ⟨image, member, ends⟩
  · intro ⟨image, member, ends⟩
    rw [← Nat.mod_eq_of_lt (small image member n ends), ← ends.endp]
    exact ⟨image, member, rfl⟩

/-- A property next to the images has no size of its own. -/
theorem FitTree.prop_word (tree : FitTree fit images) {prop : DeviceNode} (member : prop ∈ images.child)
    (other : prop.isNode = false) : fitImageWord prop (cstr "data-size") = none := by
  have leaves := (deviceNodeFindBypath_leafProps tree.found tree.leaves).child member
  rw [fitImageWord, deviceNodeFindByname, leaves.leaf other]
  rfl

/-- The total size is right exactly if the images are alone and end inside the 32 bit positions. -/
theorem fitGetTotalSize_right_iff (tree : FitTree fit images) : FitTotalRight fit images ↔ FitTotalFits images := by
  have result : fitGetTotalSize fit = fitSizeLoop fit.totalsize images.child := by
    rw [fitGetTotalSize, tree.found]
    rfl
  rw [FitTotalRight, FitTotalFits, result]
  by_cases alone : ∀ node ∈ images.child, node.isNode = true
  · have all : fitImages images = images.child := List.filter_eq_self.mpr alone
    have carried := tree.carried
    rw [all] at carried ⊢
    rw [and_iff_right alone]
    obtain ⟨total, loop, greatest⟩ := fitSizeLoop_greatest fit.totalsize carried
    simp only [loop, Option.some.injEq, exists_eq_left']
    constructor
    · intro right image member n ends
      have below := right.2 (.inr ⟨image, member, ends⟩)
      have small : total < 2 ^ 32 := by
        cases greatest.1 with
        | inl first =>
          rw [first]
          exact tree.header
        | inr later =>
          obtain ⟨other, _, value⟩ := later
          rw [value]
          exact BitVec.isLt _
      omega
    · intro small
      simp only [imageEndp_ends carried small] at greatest
      exact greatest
  · apply iff_of_false
    · intro ⟨total, loop, _⟩
      push Not at alone
      obtain ⟨prop, member, other⟩ := alone
      rw [fitSizeLoop_missing member (tree.prop_word member (by simpa using other))] at loop
      cases loop
    · exact fun fits => alone fits.1

def fitImage (size pos : BitVec 32) : DeviceNode :=
  .mk (cstr "kernel") true [] [.mk (cstr "data-size") false (cpuToBe32 size) [],
    .mk (cstr "data-position") false (cpuToBe32 pos) []]

def fitOfImage (size pos : BitVec 32) : FdtEditorPrivateData :=
  ⟨[], 40, .mk [47] true [] [.mk (cstr "images") true [] [fitImage size pos]]⟩

theorem fitImage_end (size pos : BitVec 32) (n : Nat) : ImageEnd (fitImage size pos) n ↔ n = pos.toNat + size.toNat := by
  have sized : fitImageWord (fitImage size pos) (cstr "data-size") = some size := deviceNodeReadU32_word _ size
  have placed : fitImageWord (fitImage size pos) (cstr "data-position") = some pos := deviceNodeReadU32_word _ pos
  constructor
  · intro ⟨size', pos', sized', placed', value⟩
    rw [value, Option.some.inj (placed'.symm.trans placed), Option.some.inj (sized'.symm.trans sized)]
  · intro value
    exact ⟨size, pos, sized, placed, value⟩

theorem fitOfImage_tree (size pos : BitVec 32) :
    FitTree (fitOfImage size pos) (.mk (cstr "images") true [] [fitImage size pos]) where
  found := rfl
  carried := by
    intro image member
    have same : image = fitImage size pos := by simpa [fitImages, DeviceNode.child] using List.mem_of_mem_filter member
    rw [same]
    exact ⟨_, (fitImage_end size pos _).mpr rfl⟩
  leaves := by
    have leaf (name : CString) (data : List Byte) : (DeviceNode.mk name false data []).LeafProps :=
      .mk (fun _ => rfl) (List.forall_mem_nil _)
    refine .mk (fun none => nomatch none) (List.forall_mem_singleton.mpr ?_)
    refine .mk (fun none => nomatch none) (List.forall_mem_singleton.mpr ?_)
    refine .mk (fun none => nomatch none) (List.forall_mem_cons.mpr ⟨leaf _ _, List.forall_mem_singleton.mpr (leaf _ _)⟩)
  header := show 40 < 2 ^ 32 by decide

theorem fitGetTotalSize_right_kernel :
    FitTotalRight (fitOfImage 9 256) (.mk (cstr "images") true [] [fitImage 9 256]) := by
  refine (fitGetTotalSize_right_iff (fitOfImage_tree 9 256)).mpr ⟨List.forall_mem_singleton.mpr rfl, ?_⟩
  refine List.forall_mem_singleton.mpr fun n ends => ?_
  rw [fitImage_end] at ends
  rw [ends]
  decide

/-- An image at 0x20 of 0xfffffff0 bytes ends at 0x100000010. -/
theorem fitGetTotalSize_wraps :
    ¬ FitTotalRight (fitOfImage 0xfffffff0 0x20) (.mk (cstr "images") true [] [fitImage 0xfffffff0 0x20]) := by
  intro ⟨total, loop, greatest⟩
  have result : fitGetTotalSize (fitOfImage 0xfffffff0 0x20) = some 40 := by decide
  have below := greatest.2 (.inr ⟨fitImage 0xfffffff0 0x20, List.mem_singleton_self _, (fitImage_end _ _ _).mpr rfl⟩)
  rw [← Option.some.inj (result.symm.trans loop)] at below
  exact absurd below (by decide)

end Total

end ImgEditor
